import Mathlib.Tactic

namespace Packing

-- Four bytes in one word, the first one highest.
def pack (b0 b1 b2 b3 : BitVec 8) : BitVec 32 := b0 ++ b1 ++ b2 ++ b3

theorem toNat_append_byte {w : ℕ} (x : BitVec w) (b : BitVec 8) : (x ++ b).toNat = x.toNat * 2 ^ 8 + b.toNat := by
  rw [BitVec.toNat_append, ← Nat.shiftLeft_add_eq_or_of_lt b.isLt, Nat.shiftLeft_eq]

theorem toNat_pack (b0 b1 b2 b3 : BitVec 8) :
    (pack b0 b1 b2 b3).toNat = b0.toNat * 2 ^ 24 + b1.toNat * 2 ^ 16 + b2.toNat * 2 ^ 8 + b3.toNat := by
  rw [pack, toNat_append_byte, toNat_append_byte, toNat_append_byte]
  omega

section

variable {b0 b1 b2 b3 : BitVec 8}

-- A word that has the value of four bytes holds these bytes.
theorem eq_pack {x : BitVec 32} (h : x.toNat = b0.toNat * 2 ^ 24 + b1.toNat * 2 ^ 16 + b2.toNat * 2 ^ 8 + b3.toNat) :
    x = pack b0 b1 b2 b3 :=
  BitVec.eq_of_toNat_eq (h.trans (toNat_pack b0 b1 b2 b3).symm)

theorem pack_eq_zero : pack b0 b1 b2 b3 = 0#32 ↔ b0 = 0#8 ∧ b1 = 0#8 ∧ b2 = 0#8 ∧ b3 = 0#8 := by
  simp only [← BitVec.toNat_inj, toNat_pack, BitVec.toNat_ofNat]
  omega

theorem truncate_pack : (pack b0 b1 b2 b3).truncate 8 = b3 := by
  apply BitVec.eq_of_toNat_eq
  have := b3.isLt
  simp only [BitVec.truncate, BitVec.toNat_setWidth, toNat_pack]
  omega

theorem pack_shiftRight : pack b0 b1 b2 b3 >>> 8 = pack 0#8 b0 b1 b2 := by
  apply eq_pack
  have := b3.isLt
  simp only [BitVec.toNat_ushiftRight, toNat_pack, Nat.shiftRight_eq_div_pow, BitVec.toNat_ofNat]
  omega

theorem pack_shiftLeft : pack b0 b1 b2 b3 <<< 8 = pack b1 b2 b3 0#8 := by
  apply eq_pack
  have := b1.isLt
  have := b2.isLt
  have := b3.isLt
  simp only [BitVec.toNat_shiftLeft, toNat_pack, Nat.shiftLeft_eq, BitVec.toNat_ofNat]
  omega

theorem extract_pack_zero : (pack b0 b1 b2 b3).extractLsb' 0 8 = b3 := by
  apply BitVec.eq_of_toNat_eq
  have := b3.isLt
  simp only [BitVec.extractLsb'_toNat, toNat_pack, Nat.shiftRight_eq_div_pow]
  omega

theorem extract_pack_one : (pack b0 b1 b2 b3).extractLsb' 8 8 = b2 := by
  apply BitVec.eq_of_toNat_eq
  have := b2.isLt
  have := b3.isLt
  simp only [BitVec.extractLsb'_toNat, toNat_pack, Nat.shiftRight_eq_div_pow]
  omega

theorem extract_pack_two : (pack b0 b1 b2 b3).extractLsb' 16 8 = b1 := by
  apply BitVec.eq_of_toNat_eq
  have := b1.isLt
  have := b2.isLt
  have := b3.isLt
  simp only [BitVec.extractLsb'_toNat, toNat_pack, Nat.shiftRight_eq_div_pow]
  omega

theorem extract_pack_three : (pack b0 b1 b2 b3).extractLsb' 24 8 = b0 := by
  apply BitVec.eq_of_toNat_eq
  have := b0.isLt
  have := b1.isLt
  have := b2.isLt
  have := b3.isLt
  simp only [BitVec.extractLsb'_toNat, toNat_pack, Nat.shiftRight_eq_div_pow]
  omega

end

theorem pack_or (b0 b1 b2 b3 c0 c1 c2 c3 : BitVec 8) :
    pack b0 b1 b2 b3 ||| pack c0 c1 c2 c3 = pack (b0 ||| c0) (b1 ||| c1) (b2 ||| c2) (b3 ||| c3) := by
  change (b0 ++ b1 ++ b2 ++ b3 ||| c0 ++ c1 ++ c2 ++ c3 : BitVec (8 + 8 + 8 + 8)) = _
  rw [BitVec.or_append, BitVec.or_append, BitVec.or_append]
  rfl

theorem pack_and (b0 b1 b2 b3 c0 c1 c2 c3 : BitVec 8) :
    pack b0 b1 b2 b3 &&& pack c0 c1 c2 c3 = pack (b0 &&& c0) (b1 &&& c1) (b2 &&& c2) (b3 &&& c3) := by
  change (b0 ++ b1 ++ b2 ++ b3 &&& c0 ++ c1 ++ c2 ++ c3 : BitVec (8 + 8 + 8 + 8)) = _
  rw [BitVec.and_append, BitVec.and_append, BitVec.and_append]
  rfl

theorem pack_xor (b0 b1 b2 b3 c0 c1 c2 c3 : BitVec 8) :
    pack b0 b1 b2 b3 ^^^ pack c0 c1 c2 c3 = pack (b0 ^^^ c0) (b1 ^^^ c1) (b2 ^^^ c2) (b3 ^^^ c3) := by
  change (b0 ++ b1 ++ b2 ++ b3 ^^^ c0 ++ c1 ++ c2 ++ c3 : BitVec (8 + 8 + 8 + 8)) = _
  rw [BitVec.xor_append, BitVec.xor_append, BitVec.xor_append]
  rfl

-- The four places of a byte.
theorem shiftLeft_first (b : BitVec 8) : b.zeroExtend 32 <<< 24 = pack b 0#8 0#8 0#8 := by
  apply eq_pack
  have := b.isLt
  simp only [BitVec.toNat_shiftLeft, BitVec.toNat_setWidth, Nat.shiftLeft_eq, BitVec.toNat_ofNat]
  omega

theorem shiftLeft_second (b : BitVec 8) : b.zeroExtend 32 <<< 16 = pack 0#8 b 0#8 0#8 := by
  apply eq_pack
  have := b.isLt
  simp only [BitVec.toNat_shiftLeft, BitVec.toNat_setWidth, Nat.shiftLeft_eq, BitVec.toNat_ofNat]
  omega

theorem shiftLeft_third (b : BitVec 8) : b.zeroExtend 32 <<< 8 = pack 0#8 0#8 b 0#8 := by
  apply eq_pack
  have := b.isLt
  simp only [BitVec.toNat_shiftLeft, BitVec.toNat_setWidth, Nat.shiftLeft_eq, BitVec.toNat_ofNat]
  omega

theorem zeroExtend_fourth (b : BitVec 8) : b.zeroExtend 32 = pack 0#8 0#8 0#8 b := by
  apply eq_pack
  have := b.isLt
  simp only [BitVec.toNat_setWidth, BitVec.toNat_ofNat]
  omega

-- A field of `k` bits at place `s`.
theorem toNat_and_field {w : ℕ} (x m : BitVec w) (s k : ℕ) (hm : m.toNat = (2 ^ k - 1) * 2 ^ s) :
    (x &&& m).toNat = x.toNat / 2 ^ s % 2 ^ k * 2 ^ s := by
  rw [BitVec.toNat_and, hm]
  apply Nat.eq_of_testBit_eq
  intro i
  rw [Nat.testBit_and, Nat.testBit_mul_two_pow, Nat.testBit_mul_two_pow, Nat.testBit_mod_two_pow, Nat.testBit_two_pow_sub_one,
    Nat.testBit_div_two_pow]
  by_cases h : s ≤ i
  · simp [h, Bool.and_comm]
  · simp [h]

theorem or_eq_add {x y k : ℕ} (hx : x % 2 ^ k = 0) (hy : y < 2 ^ k) : x ||| y = x + y := by
  obtain ⟨z, rfl⟩ := Nat.dvd_of_mod_eq_zero hx
  rw [Nat.mul_comm, ← Nat.shiftLeft_eq, Nat.shiftLeft_add_eq_or_of_lt hy]

theorem leadingZeros_eq {x : BitVec 32} {k : ℕ} (hk : k < 32) (lo : 2 ^ (31 - k) ≤ x.toNat) (hi : x.toNat < 2 ^ (32 - k)) :
    x.clz.toNat = k := by
  have hne : x ≠ 0#32 := by
    rintro rfl
    have := Nat.two_pow_pos (31 - k)
    simp at lo
  have hlt := BitVec.toNat_lt_two_pow_sub_clz (x := x)
  have hge := BitVec.two_pow_sub_clz_le_toNat_of_ne_zero (by decide) hne
  have h1 := (Nat.pow_lt_pow_iff_right (by decide : 1 < 2)).1 (lo.trans_lt hlt)
  have h2 := (Nat.pow_lt_pow_iff_right (by decide : 1 < 2)).1 (hge.trans_lt hi)
  omega

theorem trailingZeros_place {x : BitVec 32} {t : ℕ} (ht : t ≤ 3) (hlow : x.toNat % 2 ^ (8 * t) = 0)
    (hbyte : x.toNat % 2 ^ (8 * t + 8) ≠ 0) : x.ctz.toNat &&& 56 = 8 * t := by
  have hne : x ≠ 0#32 := by
    rintro rfl
    simp at hbyte
  have htrue := BitVec.getLsbD_true_ctz_of_ne_zero hne
  rw [← BitVec.testBit_toNat] at htrue
  have hge : 8 * t ≤ x.ctz.toNat := by
    by_contra hlt
    have hbit := congrArg (Nat.testBit · x.ctz.toNat) hlow
    simp only [Nat.testBit_mod_two_pow, Nat.zero_testBit, htrue, Bool.and_true, decide_eq_false_iff_not] at hbit
    exact hbit (by omega)
  have hlt : x.ctz.toNat < 8 * t + 8 := by
    by_contra hle
    apply hbyte
    apply Nat.eq_of_testBit_eq
    intro i
    rw [Nat.testBit_mod_two_pow, Nat.zero_testBit]
    by_cases hi : i < 8 * t + 8
    · have hfalse := BitVec.getLsbD_false_of_lt_ctz (x := x) (i := i) (by omega)
      rw [← BitVec.testBit_toNat] at hfalse
      simp [hfalse]
    · simp [hi]
  have hall : ∀ t < 4, ∀ r < 8, (8 * t + r) &&& 56 = 8 * t := by decide
  have := hall t (by omega) (x.ctz.toNat - 8 * t) (by omega)
  rwa [Nat.add_sub_cancel' hge] at this
end Packing
