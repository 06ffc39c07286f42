import Joolia.Base.Char
import Joolia.Base.Strings.Decode

namespace Joolia.Strings

open Fallible Packing

-- The bytes of a block: one byte, or a leading byte and some of its continuation bytes.
structure IsEncoding (l : List Byte) : Prop where
  pos : 0 < l.length
  length_le : l.length ≤ 1 + need (byteAt l 0)
  continuation : ∀ j, 0 < j → j < l.length → isContinuation (byteAt l j) = true

section Leading

variable {u : BitVec 32}

theorem leadingOnes_eq {k : ℕ} (hk : k < 32) (hlo : 2 ^ 32 - 2 ^ (32 - k) ≤ u.toNat) (hhi : u.toNat < 2 ^ 32 - 2 ^ (31 - k)) :
    leadingOnes u = k := by
  have hu := u.isLt
  have hnot : (~~~u).toNat = 2 ^ 32 - 1 - u.toNat := BitVec.toNat_not
  have hpos := Nat.two_pow_pos (31 - k)
  have hle : 2 ^ (32 - k) ≤ 2 ^ 32 := Nat.pow_le_pow_right (by decide) (by omega)
  apply leadingZeros_eq hk
  · omega
  · omega

end Leading

-- The places of the bits that mark a continuation byte.
theorem marks_eq : 0x00c0c0c0#32 = pack 0#8 0xc0#8 0xc0#8 0xc0#8 ∧ 0x00808080#32 = pack 0#8 0x80#8 0x80#8 0x80#8 := by
  decide

-- A word whose first byte has `len` leading ones, filled with that many bytes.
structure IsComplete (u : BitVec 32) (len : ℕ) : Prop where
  len_range : 2 ≤ len ∧ len ≤ 4
  leading : leadingOnes u = len
  trailing : trailingZeros u &&& 56 = 8 * (4 - len)
  marked : ((u &&& 0x00c0c0c0#32) ^^^ 0x00808080#32) >>> (8 * (4 - len)) = 0

theorem IsComplete.codepoint_eq {u : BitVec 32} {len : ℕ} (h : IsComplete u len) (hu : ¬u < 0x80000000#32) :
    codepoint u = .ok (unsafeCodepoint u) := by
  have hlen := h.len_range
  simp only [codepoint, if_neg hu, h.leading, h.trailing, h.marked, pure_eq_ok]
  rw [if_neg]
  simp
  omega

section Two

variable {b0 b1 : Byte} (h0 : 0xc0 ≤ b0.toNat ∧ b0.toNat < 0xe0) (h1 : isContinuation b1 = true)
include h0 h1

theorem isComplete_two : IsComplete (pack b0 b1 0#8 0#8) 2 := by
  have hb1 := (isContinuation_iff b1).1 h1
  refine ⟨by decide, ?_, ?_, ?_⟩
  · apply leadingOnes_eq (by decide)
    · rw [toNat_pack]
      omega
    · rw [toNat_pack]
      omega
  · apply trailingZeros_place (t := 2) (by decide)
    · rw [toNat_pack]
      simp
      omega
    · rw [toNat_pack]
      simp
      omega
  · have hmark : b1 &&& 0xc0#8 = 0x80#8 := by simpa [isContinuation] using h1
    rw [marks_eq.1, marks_eq.2, pack_and, pack_xor, hmark]
    simp
    decide

end Two

section Three

variable {b0 b1 b2 : Byte} (h0 : 0xe0 ≤ b0.toNat ∧ b0.toNat < 0xf0) (h1 : isContinuation b1 = true) (h2 : isContinuation b2 = true)
include h0 h1 h2

theorem isComplete_three : IsComplete (pack b0 b1 b2 0#8) 3 := by
  have hb1 := (isContinuation_iff b1).1 h1
  have hb2 := (isContinuation_iff b2).1 h2
  refine ⟨by decide, ?_, ?_, ?_⟩
  · apply leadingOnes_eq (by decide)
    · rw [toNat_pack]
      omega
    · rw [toNat_pack]
      omega
  · apply trailingZeros_place (t := 1) (by decide)
    · rw [toNat_pack]
      simp
      omega
    · rw [toNat_pack]
      simp
      omega
  · have hmark1 : b1 &&& 0xc0#8 = 0x80#8 := by simpa [isContinuation] using h1
    have hmark2 : b2 &&& 0xc0#8 = 0x80#8 := by simpa [isContinuation] using h2
    rw [marks_eq.1, marks_eq.2, pack_and, pack_xor, hmark1, hmark2]
    simp
    decide

end Three

section Four

variable {b0 b1 b2 b3 : Byte} (h0 : 0xf0 ≤ b0.toNat ∧ b0.toNat < 0xf8) (h1 : isContinuation b1 = true)
  (h2 : isContinuation b2 = true) (h3 : isContinuation b3 = true)
include h0 h1 h2 h3

theorem isComplete_four : IsComplete (pack b0 b1 b2 b3) 4 := by
  have hb1 := (isContinuation_iff b1).1 h1
  have hb2 := (isContinuation_iff b2).1 h2
  have hb3 := (isContinuation_iff b3).1 h3
  refine ⟨by decide, ?_, ?_, ?_⟩
  · apply leadingOnes_eq (by decide)
    · rw [toNat_pack]
      omega
    · rw [toNat_pack]
      omega
  · apply trailingZeros_place (t := 0) (by decide)
    · simp [Nat.mod_one]
    · rw [toNat_pack]
      simp
      omega
  · have hmark1 : b1 &&& 0xc0#8 = 0x80#8 := by simpa [isContinuation] using h1
    have hmark2 : b2 &&& 0xc0#8 = 0x80#8 := by simpa [isContinuation] using h2
    have hmark3 : b3 &&& 0xc0#8 = 0x80#8 := by simpa [isContinuation] using h3
    rw [marks_eq.1, marks_eq.2, pack_and, pack_xor, hmark1, hmark2, hmark3]
    simp
    decide

end Four

theorem or_groups {x0 x1 x2 x3 : ℕ} (h1 : x1 < 64) (h2 : x2 < 64) (h3 : x3 < 64) :
    x3 ||| x2 * 2 ^ 6 ||| x1 * 2 ^ 12 ||| x0 * 2 ^ 18 = x0 * 2 ^ 18 + x1 * 2 ^ 12 + x2 * 2 ^ 6 + x3 := by
  have e2 : x3 ||| x2 * 2 ^ 6 = x2 * 2 ^ 6 + x3 := by
    rw [Nat.or_comm, or_eq_add (k := 6) (by omega) (by omega)]
  have e1 : x2 * 2 ^ 6 + x3 ||| x1 * 2 ^ 12 = x1 * 2 ^ 12 + (x2 * 2 ^ 6 + x3) := by
    rw [Nat.or_comm, or_eq_add (k := 12) (by omega) (by omega)]
  rw [e2, e1, Nat.or_comm, or_eq_add (k := 18) (by omega) (by omega)]
  omega

-- The four groups of six bits, pushed together.
theorem toNat_squeeze {c0 c1 c2 c3 : Byte} (h1 : (c1 &&& 0x7f#8).toNat < 64)
    (h2 : (c2 &&& 0x7f#8).toNat < 64) (h3 : (c3 &&& 0x7f#8).toNat < 64) :
    let u := pack c0 c1 c2 c3
    (((u &&& 0x0000007f#32) >>> 0) ||| ((u &&& 0x00007f00#32) >>> 2) ||| ((u &&& 0x007f0000#32) >>> 4) ||| ((u &&& 0x7f000000#32) >>> 6)).toNat =
      (c0 &&& 0x7f#8).toNat * 2 ^ 18 + (c1 &&& 0x7f#8).toNat * 2 ^ 12 + (c2 &&& 0x7f#8).toNat * 2 ^ 6 + (c3 &&& 0x7f#8).toNat := by
  have e0 : 0x7f000000#32 = pack 0x7f#8 0#8 0#8 0#8 := by decide
  have e1 : 0x007f0000#32 = pack 0#8 0x7f#8 0#8 0#8 := by decide
  have e2 : 0x00007f00#32 = pack 0#8 0#8 0x7f#8 0#8 := by decide
  have e3 : 0x0000007f#32 = pack 0#8 0#8 0#8 0x7f#8 := by decide
  simp only [e0, e1, e2, e3, pack_and, BitVec.and_zero, BitVec.toNat_or, BitVec.toNat_ushiftRight, toNat_pack, BitVec.toNat_ofNat,
    Nat.shiftRight_eq_div_pow]
  rw [← or_groups h1 h2 h3]
  congr 3 <;> omega

theorem and_7f_of_continuation {b : Byte} (h : isContinuation b = true) : (b &&& 0x7f#8).toNat = b.toNat - 0x80 := by
  revert b
  decide

theorem and_ff (b : Byte) : b &&& 0xff#8 = b := by
  revert b
  decide

-- The bits of a leading byte after its leading ones.
theorem and_mask_two {b : Byte} (h : 0xc0 ≤ b.toNat ∧ b.toNat < 0xe0) : (b &&& 0x3f#8 &&& 0x7f#8).toNat = b.toNat - 0xc0 := by
  revert b
  decide

theorem and_mask_three {b : Byte} (h : 0xe0 ≤ b.toNat ∧ b.toNat < 0xf0) : (b &&& 0x1f#8 &&& 0x7f#8).toNat = b.toNat - 0xe0 := by
  revert b
  decide

theorem and_mask_four {b : Byte} (h : 0xf0 ≤ b.toNat ∧ b.toNat < 0xf8) : (b &&& 0x0f#8 &&& 0x7f#8).toNat = b.toNat - 0xf0 := by
  revert b
  decide

theorem toNat_codepoint_two {b0 b1 : Byte} (h0 : 0xc0 ≤ b0.toNat ∧ b0.toNat < 0xe0) (h1 : isContinuation b1 = true) :
    (unsafeCodepoint (pack b0 b1 0#8 0#8)).toNat = (b0.toNat - 0xc0) * 2 ^ 6 + (b1.toNat - 0x80) := by
  have h := isComplete_two h0 h1
  have hb1 := (isContinuation_iff b1).1 h1
  have hu : ¬pack b0 b1 0#8 0#8 < 0x80000000#32 := mt (pack_lt 0x80 rfl).1 (by omega)
  have hmask : 0xffffffff#32 >>> 2 = pack 0x3f#8 0xff#8 0xff#8 0xff#8 := by decide
  have hlead := and_mask_two h0
  have hc1 := and_7f_of_continuation h1
  simp only [unsafeCodepoint, if_neg hu, h.leading, h.trailing, hmask, pack_and, and_ff]
  rw [show 8 * (4 - 2) = 8 + 8 by rfl, BitVec.shiftRight_add, pack_shiftRight, pack_shiftRight]
  refine (toNat_squeeze (by decide) ?_ ?_).trans ?_
  · rw [hlead]
    omega
  · rw [hc1]
    omega
  · rw [hlead, hc1]
    simp

theorem toNat_codepoint_three {b0 b1 b2 : Byte} (h0 : 0xe0 ≤ b0.toNat ∧ b0.toNat < 0xf0) (h1 : isContinuation b1 = true)
    (h2 : isContinuation b2 = true) :
    (unsafeCodepoint (pack b0 b1 b2 0#8)).toNat = (b0.toNat - 0xe0) * 2 ^ 12 + (b1.toNat - 0x80) * 2 ^ 6 + (b2.toNat - 0x80) := by
  have h := isComplete_three h0 h1 h2
  have hb1 := (isContinuation_iff b1).1 h1
  have hb2 := (isContinuation_iff b2).1 h2
  have hu : ¬pack b0 b1 b2 0#8 < 0x80000000#32 := mt (pack_lt 0x80 rfl).1 (by omega)
  have hmask : 0xffffffff#32 >>> 3 = pack 0x1f#8 0xff#8 0xff#8 0xff#8 := by decide
  have hlead := and_mask_three h0
  have hc1 := and_7f_of_continuation h1
  have hc2 := and_7f_of_continuation h2
  simp only [unsafeCodepoint, if_neg hu, h.leading, h.trailing, hmask, pack_and, and_ff]
  rw [show 8 * (4 - 3) = 8 by rfl, pack_shiftRight]
  refine (toNat_squeeze ?_ ?_ ?_).trans ?_
  · rw [hlead]
    omega
  · rw [hc1]
    omega
  · rw [hc2]
    omega
  · rw [hlead, hc1, hc2]
    simp

theorem toNat_codepoint_four {b0 b1 b2 b3 : Byte} (h0 : 0xf0 ≤ b0.toNat ∧ b0.toNat < 0xf8) (h1 : isContinuation b1 = true)
    (h2 : isContinuation b2 = true) (h3 : isContinuation b3 = true) :
    (unsafeCodepoint (pack b0 b1 b2 b3)).toNat =
      (b0.toNat - 0xf0) * 2 ^ 18 + (b1.toNat - 0x80) * 2 ^ 12 + (b2.toNat - 0x80) * 2 ^ 6 + (b3.toNat - 0x80) := by
  have h := isComplete_four h0 h1 h2 h3
  have hb1 := (isContinuation_iff b1).1 h1
  have hb2 := (isContinuation_iff b2).1 h2
  have hb3 := (isContinuation_iff b3).1 h3
  have hu : ¬pack b0 b1 b2 b3 < 0x80000000#32 := mt (pack_lt 0x80 rfl).1 (by omega)
  have hmask : 0xffffffff#32 >>> 4 = pack 0x0f#8 0xff#8 0xff#8 0xff#8 := by decide
  have hlead := and_mask_four h0
  have hc1 := and_7f_of_continuation h1
  have hc2 := and_7f_of_continuation h2
  have hc3 := and_7f_of_continuation h3
  simp only [unsafeCodepoint, if_neg hu, h.leading, h.trailing, hmask, pack_and, and_ff]
  rw [show 8 * (4 - 4) = 0 by rfl, BitVec.ushiftRight_zero]
  refine (toNat_squeeze ?_ ?_ ?_).trans ?_
  · rw [hc1]
    omega
  · rw [hc2]
    omega
  · rw [hc3]
    omega
  · rw [hlead, hc1, hc2, hc3]

-- The groups of six bits of a code point, one to a byte.
theorem spread_eq {u : BitVec 32} (hu : u.toNat < 0x200000) :
    ((u <<< 0) &&& 0x0000003f#32) ||| ((u <<< 2) &&& 0x00003f00#32) ||| ((u <<< 4) &&& 0x003f0000#32) ||| ((u <<< 6) &&& 0x3f000000#32) =
      pack (BitVec.ofNat 8 (u.toNat / 2 ^ 18)) (BitVec.ofNat 8 (u.toNat / 2 ^ 12 % 64)) (BitVec.ofNat 8 (u.toNat / 2 ^ 6 % 64))
        (BitVec.ofNat 8 (u.toNat % 64)) := by
  have e3 : (u <<< 0) &&& 0x0000003f#32 = pack 0#8 0#8 0#8 (BitVec.ofNat 8 (u.toNat % 64)) := by
    apply eq_pack
    rw [toNat_and_field _ _ 0 6 rfl]
    simp only [BitVec.toNat_shiftLeft, Nat.shiftLeft_eq, BitVec.toNat_ofNat]
    omega
  have e2 : (u <<< 2) &&& 0x00003f00#32 = pack 0#8 0#8 (BitVec.ofNat 8 (u.toNat / 2 ^ 6 % 64)) 0#8 := by
    apply eq_pack
    rw [toNat_and_field _ _ 8 6 rfl]
    simp only [BitVec.toNat_shiftLeft, Nat.shiftLeft_eq, BitVec.toNat_ofNat]
    omega
  have e1 : (u <<< 4) &&& 0x003f0000#32 = pack 0#8 (BitVec.ofNat 8 (u.toNat / 2 ^ 12 % 64)) 0#8 0#8 := by
    apply eq_pack
    rw [toNat_and_field _ _ 16 6 rfl]
    simp only [BitVec.toNat_shiftLeft, Nat.shiftLeft_eq, BitVec.toNat_ofNat]
    omega
  have e0 : (u <<< 6) &&& 0x3f000000#32 = pack (BitVec.ofNat 8 (u.toNat / 2 ^ 18)) 0#8 0#8 0#8 := by
    apply eq_pack
    rw [toNat_and_field _ _ 24 6 rfl]
    simp only [BitVec.toNat_shiftLeft, Nat.shiftLeft_eq, BitVec.toNat_ofNat]
    omega
  rw [e0, e1, e2, e3]
  simp only [pack_or, BitVec.zero_or, BitVec.or_zero]

theorem or_lead_two {b : Byte} (h : 0xc0 ≤ b.toNat ∧ b.toNat < 0xe0) : BitVec.ofNat 8 (b.toNat - 0xc0) ||| 0xc0#8 = b := by
  revert b
  decide

theorem or_lead_three {b : Byte} (h : 0xe0 ≤ b.toNat ∧ b.toNat < 0xf0) : BitVec.ofNat 8 (b.toNat - 0xe0) ||| 0xe0#8 = b := by
  revert b
  decide

theorem or_lead_four {b : Byte} (h : 0xf0 ≤ b.toNat ∧ b.toNat < 0xf8) : BitVec.ofNat 8 (b.toNat - 0xf0) ||| 0xf0#8 = b := by
  revert b
  decide

theorem or_continuation {b : Byte} (h : isContinuation b = true) : BitVec.ofNat 8 (b.toNat - 0x80) ||| 0x80#8 = b := by
  revert b
  decide

theorem charOfCodepoint_two {b0 b1 : Byte} {u : BitVec 32} (h0 : 0xc0 ≤ b0.toNat ∧ b0.toNat < 0xe0) (h1 : isContinuation b1 = true)
    (hu : u.toNat = (b0.toNat - 0xc0) * 2 ^ 6 + (b1.toNat - 0x80)) (hmin : 0x80 ≤ u.toNat) :
    charOfCodepoint u = .ok (pack b0 b1 0#8 0#8) := by
  have hb1 := (isContinuation_iff b1).1 h1
  have hmark : 0xc0800000#32 = pack 0xc0#8 0x80#8 0#8 0#8 := by decide
  have hlow : ¬u < 0x80 := by
    simp only [BitVec.lt_def, BitVec.ofNat_eq_ofNat, BitVec.toNat_ofNat]
    omega
  have hhigh : u < 0x00200000#32 ∧ u < 0x00000800#32 := by
    simp only [BitVec.lt_def, BitVec.toNat_ofNat]
    omega
  simp only [charOfCodepoint, if_neg hlow, if_neg (not_not.2 hhigh.1), if_pos hhigh.2, pure_eq_ok, spread_eq (u := u) (by omega), hmark]
  rw [show (16 : ℕ) = 8 + 8 by rfl, BitVec.shiftLeft_add, pack_shiftLeft, pack_shiftLeft, pack_or,
    show u.toNat / 2 ^ 6 % 64 = b0.toNat - 0xc0 by omega, show u.toNat % 64 = b1.toNat - 0x80 by omega,
    or_lead_two h0, or_continuation h1]
  simp

theorem charOfCodepoint_three {b0 b1 b2 : Byte} {u : BitVec 32} (h0 : 0xe0 ≤ b0.toNat ∧ b0.toNat < 0xf0)
    (h1 : isContinuation b1 = true) (h2 : isContinuation b2 = true)
    (hu : u.toNat = (b0.toNat - 0xe0) * 2 ^ 12 + (b1.toNat - 0x80) * 2 ^ 6 + (b2.toNat - 0x80)) (hmin : 0x800 ≤ u.toNat) :
    charOfCodepoint u = .ok (pack b0 b1 b2 0#8) := by
  have hb1 := (isContinuation_iff b1).1 h1
  have hb2 := (isContinuation_iff b2).1 h2
  have hmark : 0xe0808000#32 = pack 0xe0#8 0x80#8 0x80#8 0#8 := by decide
  have hlow : ¬u < 0x80 ∧ ¬u < 0x00000800#32 := by
    simp only [BitVec.lt_def, BitVec.ofNat_eq_ofNat, BitVec.toNat_ofNat]
    omega
  have hhigh : u < 0x00200000#32 ∧ u < 0x00010000#32 := by
    simp only [BitVec.lt_def, BitVec.toNat_ofNat]
    omega
  simp only [charOfCodepoint, if_neg hlow.1, if_neg (not_not.2 hhigh.1), if_neg hlow.2, if_pos hhigh.2, pure_eq_ok,
    spread_eq (u := u) (by omega), hmark]
  rw [pack_shiftLeft, pack_or, show u.toNat / 2 ^ 12 % 64 = b0.toNat - 0xe0 by omega,
    show u.toNat / 2 ^ 6 % 64 = b1.toNat - 0x80 by omega, show u.toNat % 64 = b2.toNat - 0x80 by omega,
    or_lead_three h0, or_continuation h1, or_continuation h2]
  simp

theorem charOfCodepoint_four {b0 b1 b2 b3 : Byte} {u : BitVec 32} (h0 : 0xf0 ≤ b0.toNat ∧ b0.toNat < 0xf8)
    (h1 : isContinuation b1 = true) (h2 : isContinuation b2 = true) (h3 : isContinuation b3 = true)
    (hu : u.toNat = (b0.toNat - 0xf0) * 2 ^ 18 + (b1.toNat - 0x80) * 2 ^ 12 + (b2.toNat - 0x80) * 2 ^ 6 + (b3.toNat - 0x80))
    (hmin : 0x10000 ≤ u.toNat) : charOfCodepoint u = .ok (pack b0 b1 b2 b3) := by
  have hb1 := (isContinuation_iff b1).1 h1
  have hb2 := (isContinuation_iff b2).1 h2
  have hb3 := (isContinuation_iff b3).1 h3
  have hmark : 0xf0808080#32 = pack 0xf0#8 0x80#8 0x80#8 0x80#8 := by decide
  have hlow : ¬u < 0x80 ∧ ¬u < 0x00000800#32 ∧ ¬u < 0x00010000#32 := by
    simp only [BitVec.lt_def, BitVec.ofNat_eq_ofNat, BitVec.toNat_ofNat]
    omega
  have hhigh : u < 0x00200000#32 := by
    simp only [BitVec.lt_def, BitVec.toNat_ofNat]
    omega
  simp only [charOfCodepoint, if_neg hlow.1, if_neg (not_not.2 hhigh), if_neg hlow.2.1, if_neg hlow.2.2, pure_eq_ok,
    spread_eq (u := u) (by omega), hmark]
  rw [BitVec.shiftLeft_zero, pack_or, show u.toNat / 2 ^ 18 = b0.toNat - 0xf0 by omega, show u.toNat / 2 ^ 12 % 64 = b1.toNat - 0x80 by omega,
    show u.toNat / 2 ^ 6 % 64 = b2.toNat - 0x80 by omega, show u.toNat % 64 = b3.toNat - 0x80 by omega,
    or_lead_four h0, or_continuation h1, or_continuation h2, or_continuation h3]

-- An overlong encoding is one of a smaller code point than its length allows.
theorem isoverlong_iff (u : BitVec 32) : isoverlong u = true ↔
    u.toNat / 2 ^ 24 = 0xc0 ∨ u.toNat / 2 ^ 24 = 0xc1 ∨ u.toNat / 2 ^ 21 = 0x704 ∨ u.toNat / 2 ^ 20 = 0xf08 := by
  simp [isoverlong, ← BitVec.toNat_inj, Nat.shiftRight_eq_div_pow]

-- The bytes of an encoding, one case for each length.
theorem IsEncoding.cases {l : List Byte} (h : IsEncoding l) :
    (∃ b0, l = [b0]) ∨ (∃ b0 b1, l = [b0, b1] ∧ 1 ≤ need b0 ∧ isContinuation b1 = true) ∨
    (∃ b0 b1 b2, l = [b0, b1, b2] ∧ 2 ≤ need b0 ∧ isContinuation b1 = true ∧ isContinuation b2 = true) ∨
    ∃ b0 b1 b2 b3, l = [b0, b1, b2, b3] ∧ 3 ≤ need b0 ∧ isContinuation b1 = true ∧ isContinuation b2 = true ∧
      isContinuation b3 = true := by
  have hle := h.length_le
  have hneed := need_le (byteAt l 0)
  rcases l with _ | ⟨b0, _ | ⟨b1, _ | ⟨b2, _ | ⟨b3, _ | ⟨b4, l⟩⟩⟩⟩⟩
  · exact absurd h.pos (by simp)
  · exact .inl ⟨b0, rfl⟩
  · simp only [List.length_cons, List.length_nil] at hle
    exact .inr (.inl ⟨b0, b1, rfl, by change 2 ≤ 1 + need b0 at hle; omega, h.continuation 1 (by simp) (by simp)⟩)
  · simp only [List.length_cons, List.length_nil] at hle
    exact .inr (.inr (.inl ⟨b0, b1, b2, rfl, by change 3 ≤ 1 + need b0 at hle; omega, h.continuation 1 (by simp) (by simp),
      h.continuation 2 (by simp) (by simp)⟩))
  · simp only [List.length_cons, List.length_nil] at hle
    exact .inr (.inr (.inr ⟨b0, b1, b2, b3, rfl, by change 4 ≤ 1 + need b0 at hle; omega, h.continuation 1 (by simp) (by simp),
      h.continuation 2 (by simp) (by simp), h.continuation 3 (by simp) (by simp)⟩))
  · simp only [List.length_cons] at hle
    omega

theorem IsEncoding.trailing {l : List Byte} (h : IsEncoding l) (hb : 0x80 ≤ (byteAt l 0).toNat) :
    trailingZeros (charOf l) &&& 56 = 8 * (4 - l.length) := by
  rcases h.cases with ⟨b0, rfl⟩ | ⟨b0, b1, rfl, -, h1⟩ | ⟨b0, b1, b2, rfl, -, h1, h2⟩ | ⟨b0, b1, b2, b3, rfl, -, h1, h2, h3⟩
  · change 0x80 ≤ b0.toNat at hb
    have := b0.isLt
    change trailingZeros (pack b0 0#8 0#8 0#8) &&& 56 = 8 * 3
    apply trailingZeros_place (by decide)
    · rw [toNat_pack]
      simp
    · rw [toNat_pack]
      simp
      omega
  · have hb1 := (isContinuation_iff b1).1 h1
    change trailingZeros (pack b0 b1 0#8 0#8) &&& 56 = 8 * 2
    apply trailingZeros_place (by decide) <;> rw [toNat_pack] <;> simp <;> omega
  · have hb2 := (isContinuation_iff b2).1 h2
    change trailingZeros (pack b0 b1 b2 0#8) &&& 56 = 8 * 1
    apply trailingZeros_place (by decide) <;> rw [toNat_pack] <;> simp <;> omega
  · have hb3 := (isContinuation_iff b3).1 h3
    change trailingZeros (pack b0 b1 b2 b3) &&& 56 = 8 * 0
    apply trailingZeros_place (by decide)
    · simp [Nat.mod_one]
    · rw [toNat_pack]
      simp
      omega

theorem need_eq (b : Byte) : need b = 0 ∧ (b.toNat < 0xc0 ∨ 0xf8 ≤ b.toNat) ∨ need b = 1 ∧ 0xc0 ≤ b.toNat ∧ b.toNat < 0xe0 ∨
    need b = 2 ∧ 0xe0 ≤ b.toNat ∧ b.toNat < 0xf0 ∨ need b = 3 ∧ 0xf0 ≤ b.toNat ∧ b.toNat < 0xf8 := by
  unfold need
  split_ifs <;> omega

theorem toNat_charOf_bounds (l : List Byte) : (byteAt l 0).toNat * 2 ^ 24 ≤ (charOf l).toNat ∧
    (charOf l).toNat < ((byteAt l 0).toNat + 1) * 2 ^ 24 := by
  have := (byteAt l 1).isLt
  have := (byteAt l 2).isLt
  have := (byteAt l 3).isLt
  rw [charOf, toNat_pack]
  omega

theorem leadingOnes_charOf {l : List Byte} (hneed : 1 ≤ need (byteAt l 0)) :
    leadingOnes (charOf l) = need (byteAt l 0) + 1 := by
  have hbounds := toNat_charOf_bounds l
  rcases need_eq (byteAt l 0) with ⟨h, -⟩ | ⟨h, hb⟩ | ⟨h, hb⟩ | ⟨h, hb⟩
  · omega
  · rw [h]
    apply leadingOnes_eq (by decide) <;> omega
  · rw [h]
    apply leadingOnes_eq (by decide) <;> omega
  · rw [h]
    apply leadingOnes_eq (by decide) <;> omega

theorem leadingOnes_continuation {l : List Byte} (hb : 0x80 ≤ (byteAt l 0).toNat ∧ (byteAt l 0).toNat < 0xc0) :
    leadingOnes (charOf l) = 1 := by
  have hbounds := toNat_charOf_bounds l
  apply leadingOnes_eq (by decide) <;> omega

theorem leadingOnes_long {u : BitVec 32} (hu : 0xf8 * 2 ^ 24 ≤ u.toNat) : 5 ≤ leadingOnes u := by
  have hlt := u.isLt
  have hnot : (~~~u).toNat = 2 ^ 32 - 1 - u.toNat := BitVec.toNat_not
  by_contra hle
  have hne : ~~~u ≠ 0#32 := by
    intro hzero
    simp [leadingOnes, hzero] at hle
  have hge := BitVec.two_pow_sub_clz_le_toNat_of_ne_zero (by decide) hne
  have hpow : 2 ^ 27 ≤ 2 ^ (32 - 1 - (~~~u).clz.toNat) := Nat.pow_le_pow_right (by decide) (by rw [leadingOnes] at hle; omega)
  omega

-- A leading byte without all of its continuation bytes, or a byte that leads nothing.
theorem IsEncoding.ismalformed_eq {l : List Byte} (h : IsEncoding l) (hb : 0x80 ≤ (byteAt l 0).toNat)
    (hinc : need (byteAt l 0) = 0 ∨ l.length < need (byteAt l 0) + 1) : ismalformed (charOf l) = true := by
  have hpos := h.pos
  have hle := h.length_le
  simp only [ismalformed, h.trailing hb, decide_eq_true_eq, Nat.shiftLeft_eq]
  rcases Nat.eq_zero_or_pos (need (byteAt l 0)) with hzero | hneed
  · rcases need_eq (byteAt l 0) with ⟨-, hlow | hhigh⟩ | ⟨h1, -⟩ | ⟨h2, -⟩ | ⟨h3, -⟩
    · left
      rw [leadingOnes_continuation ⟨hb, hlow⟩]
    · right; left
      have hbounds := toNat_charOf_bounds l
      have := leadingOnes_long (u := charOf l) (by omega)
      omega
    all_goals omega
  · right; left
    rw [leadingOnes_charOf hneed]
    have := need_le (byteAt l 0)
    omega

theorem IsEncoding.complete {l : List Byte} (h : IsEncoding l) (hb : 0x80 ≤ (byteAt l 0).toNat)
    (hmal : ¬ismalformed (charOf l) = true) : 1 ≤ need (byteAt l 0) ∧ l.length = need (byteAt l 0) + 1 := by
  have hle := h.length_le
  have hinc := mt (h.ismalformed_eq hb) hmal
  omega

-- What `escape_string` and `unescape_string` need of a character that is neither
-- malformed nor overlong.
structure HasCodepoint (c : Chr) (n : BitVec 32) : Prop where
  codepoint_eq : codepoint c = .ok n
  unsafe_eq : unsafeCodepoint c = n
  char_eq : charOfCodepoint n = .ok c
  range : 0x80 ≤ n.toNat ∧ n.toNat < 0x200000
  le_ffff : c ≤ 0xefbfbf00#32 ↔ n.toNat ≤ 0xffff

theorem IsEncoding.hasCodepoint {l : List Byte} (h : IsEncoding l) (hb : 0x80 ≤ (byteAt l 0).toNat)
    (hover : ¬isoverlong (charOf l) = true) (hmal : ¬ismalformed (charOf l) = true) :
    HasCodepoint (charOf l) (unsafeCodepoint (charOf l)) := by
  have hu : ¬charOf l < 0x80000000#32 := by
    have := toNat_charOf_bounds l
    rw [BitVec.lt_def]
    simp only [BitVec.toNat_ofNat]
    omega
  rw [isoverlong_iff] at hover
  have hcomplete := h.complete hb hmal
  rcases h.cases with ⟨b0, rfl⟩ | ⟨b0, b1, rfl, -, h1⟩ | ⟨b0, b1, b2, rfl, -, h1, h2⟩ | ⟨b0, b1, b2, b3, rfl, -, h1, h2, h3⟩
  · simp at hcomplete
    omega
  · have h0 : 0xc0 ≤ b0.toNat ∧ b0.toNat < 0xe0 := by
      have hneed : 2 = need b0 + 1 := hcomplete.2
      have := need_eq b0
      omega
    change HasCodepoint (pack b0 b1 0#8 0#8) (unsafeCodepoint (pack b0 b1 0#8 0#8))
    change ¬pack b0 b1 0#8 0#8 < 0x80000000#32 at hu
    rw [show charOf [b0, b1] = pack b0 b1 0#8 0#8 by rfl, toNat_pack] at hover
    have hb1 := (isContinuation_iff b1).1 h1
    have hn := toNat_codepoint_two h0 h1
    have hmin : 0x80 ≤ (unsafeCodepoint (pack b0 b1 0#8 0#8)).toNat := by
      simp only [BitVec.toNat_ofNat] at hover
      omega
    refine ⟨(isComplete_two h0 h1).codepoint_eq hu, rfl, charOfCodepoint_two h0 h1 hn hmin, ⟨hmin, by omega⟩, ?_⟩
    rw [BitVec.le_def, toNat_pack]
    simp only [BitVec.toNat_ofNat]
    omega
  · have h0 : 0xe0 ≤ b0.toNat ∧ b0.toNat < 0xf0 := by
      have hneed : 3 = need b0 + 1 := hcomplete.2
      have := need_eq b0
      omega
    change HasCodepoint (pack b0 b1 b2 0#8) (unsafeCodepoint (pack b0 b1 b2 0#8))
    change ¬pack b0 b1 b2 0#8 < 0x80000000#32 at hu
    rw [show charOf [b0, b1, b2] = pack b0 b1 b2 0#8 by rfl, toNat_pack] at hover
    have hb1 := (isContinuation_iff b1).1 h1
    have hb2 := (isContinuation_iff b2).1 h2
    have hn := toNat_codepoint_three h0 h1 h2
    have hmin : 0x800 ≤ (unsafeCodepoint (pack b0 b1 b2 0#8)).toNat := by
      simp only [BitVec.toNat_ofNat] at hover
      omega
    refine ⟨(isComplete_three h0 h1 h2).codepoint_eq hu, rfl, charOfCodepoint_three h0 h1 h2 hn hmin, ⟨by omega, by omega⟩, ?_⟩
    rw [BitVec.le_def, toNat_pack]
    simp only [BitVec.toNat_ofNat]
    omega
  · have h0 : 0xf0 ≤ b0.toNat ∧ b0.toNat < 0xf8 := by
      have hneed : 4 = need b0 + 1 := hcomplete.2
      have := need_eq b0
      omega
    change HasCodepoint (pack b0 b1 b2 b3) (unsafeCodepoint (pack b0 b1 b2 b3))
    change ¬pack b0 b1 b2 b3 < 0x80000000#32 at hu
    rw [show charOf [b0, b1, b2, b3] = pack b0 b1 b2 b3 by rfl, toNat_pack] at hover
    have hb1 := (isContinuation_iff b1).1 h1
    have hb2 := (isContinuation_iff b2).1 h2
    have hb3 := (isContinuation_iff b3).1 h3
    have hn := toNat_codepoint_four h0 h1 h2 h3
    have hmin : 0x10000 ≤ (unsafeCodepoint (pack b0 b1 b2 b3)).toNat := by
      omega
    refine ⟨(isComplete_four h0 h1 h2 h3).codepoint_eq hu, rfl, charOfCodepoint_four h0 h1 h2 h3 hn hmin, ⟨by omega, by omega⟩, ?_⟩
    rw [BitVec.le_def, toNat_pack]
    simp only [BitVec.toNat_ofNat]
    omega

end Joolia.Strings
