import Joolia.Base.Parse.Digits

namespace Joolia.IntFuncs

open Positional Fallible Parse

-- The bytes of a text in ASCII, as characters.
def characters (bytes : List UInt8) : List Char := bytes.map fun b => Char.ofNat b.toNat

-- The text of a number as one writes it by hand: the sign, zeros up to `q` digits, the digits.
def handwritten (b : ℕ) (n q : ℤ) : List Char :=
  (if n < 0 then ['-'] else []) ++ List.replicate (q - (Nat.digits b n.natAbs).length).toNat '0' ++
    (Nat.digits b n.natAbs).reverse.map (digitChar b)

section Texts

variable {b : ℕ} (hb : 2 ≤ b) (hsmall : b ≤ 62)

include hsmall in
theorem characters_digits {ds : List ℕ} (hds : ∀ d ∈ ds, d < b) :
    characters (ds.map (digitByte b)) = ds.map (digitChar b) := by
  rw [characters, List.map_map]
  refine List.map_congr_left ?_
  intro d hd
  exact (digitChar_table b (by omega) d (hds d hd)).2.2.2.2.symm

theorem characters_signed (neg : Bool) (bytes : List UInt8) :
    characters (signed neg bytes) = (if neg then ['-'] else []) ++ characters bytes := by
  cases neg with
  | false => rfl
  | true => rfl

theorem length_text (b : ℕ) (neg : Bool) (q : ℤ) (x : ℕ) :
    (((signed neg ((lastDigits b x (max q (Nat.digits b x).length).toNat).map (digitByte b))).length : ℕ) : ℤ) =
      signWidth neg + max q (Nat.digits b x).length := by
  cases neg with
  | false =>
      simp [signed, signWidth]
  | true =>
      simp [signed, signWidth]
      omega

include hb hsmall in
theorem characters_text (n q : ℤ) :
    characters (signed (decide (n < 0))
      ((lastDigits b n.natAbs (max q (Nat.digits b n.natAbs).length).toNat).map (digitByte b))) = handwritten b n q := by
  have hfits : n.natAbs < b ^ (max q (Nat.digits b n.natAbs).length).toNat :=
    (lt_pow_length_digits hb _).trans_le (Nat.pow_le_pow_right (by omega) (by omega))
  have hzero : digitChar b 0 = '0' := rfl
  have hpad : (max q (Nat.digits b n.natAbs).length).toNat - (Nat.digits b n.natAbs).length =
      (q - (Nat.digits b n.natAbs).length).toNat := by omega
  rw [characters_signed, characters_digits hsmall (fun d hd => mem_lastDigits (by omega) hd),
    lastDigits_eq_padded (by omega) hfits, List.map_append, List.map_replicate, hzero, hpad, handwritten,
    List.append_assoc]
  simp only [decide_eq_true_eq]

end Texts

section Strings

variable (mem : ℕ → UInt8) {T : IntType} (n : MachineInt T) {b : ℕ} (hb : 2 ≤ b) (hsmall : b ≤ 62) (p : ℤ)

include hb hsmall

-- The writers return unless the sign and the digits together are more than an Int can count.
theorem string_ok (hlength : ¬ (n.val < 0 ∧ Int64.typemax ≤ p)) : ∃ text, string mem T n b p = .ok text ∧
    text = signed (decide (n.val < 0)) ((lastDigits b n.val.natAbs
      (max (min p Int64.typemax) (Nat.digits b n.val.natAbs).length).toNat).map (digitByte b)) := by
  have hfew := length_digits_le hb (natAbs_lt n)
  have hmax : Int64.typemax = 9223372036854775807 := rfl
  have hmin : Int64.typemin = -9223372036854775808 := rfl
  have hclamp : max (min (max p Int64.typemin) Int64.typemax) ((Nat.digits b n.val.natAbs).length : ℤ) =
      max (min p Int64.typemax) (Nat.digits b n.val.natAbs).length := by omega
  refine ⟨_, ?_, rfl⟩
  rw [string_eq_textOf n mem hb hsmall, textOf, hclamp, if_neg]
  by_cases hneg : n.val < 0
  · rw [decide_eq_true hneg, signWidth, if_pos rfl]
    omega
  · rw [decide_eq_false hneg, signWidth, if_neg Bool.false_ne_true]
    omega

theorem string_error (hlength : n.val < 0 ∧ Int64.typemax ≤ p) : string mem T n b p = .error .inexactError := by
  have hmax : Int64.typemax = 9223372036854775807 := rfl
  rw [string_eq_textOf n mem hb hsmall, textOf, if_pos]
  rw [decide_eq_true hlength.1, signWidth, if_pos rfl]
  omega

omit hsmall in
-- The digits are those of the number.
theorem value_lastDigits (q : ℤ) (x : ℕ) : value b (lastDigits b x (max q (Nat.digits b x).length).toNat) 0 = x := by
  have hfits : x < b ^ (max q (Nat.digits b x).length).toNat :=
    (lt_pow_length_digits hb _).trans_le (Nat.pow_le_pow_right (by omega) (by omega))
  rw [value, foldl_lastDigits, Nat.mod_eq_of_lt hfits]

-- Every text with a digit is read back.
theorem parse_text (q : ℤ) (hdigit : 0 < max q (Nat.digits b n.val.natAbs).length) :
    parse T (characters (signed (decide (n.val < 0)) ((lastDigits b n.val.natAbs
      (max q (Nat.digits b n.val.natAbs).length).toNat).map (digitByte b)))) (some b) = .ok n.val := by
  have hvalue := value_lastDigits hb q n.val.natAbs
  have hds : ∀ d ∈ lastDigits b n.val.natAbs (max q (Nat.digits b n.val.natAbs).length).toNat, d < b :=
    fun d hd => mem_lastDigits (by omega) hd
  have hne : lastDigits b n.val.natAbs (max q (Nat.digits b n.val.natAbs).length).toNat ≠ [] := by
    rw [← List.length_pos_iff, length_lastDigits]
    omega
  have hsigned : (n.val.natAbs : ℤ) * (if decide (n.val < 0) = true then -1 else 1) = n.val := by
    by_cases hneg : n.val < 0
    · rw [if_pos (decide_eq_true hneg)]
      omega
    · rw [if_neg (by simpa using hneg)]
      omega
  rw [characters_signed, characters_digits hsmall hds]
  have h := @parse_digits T b hb hsmall _ hne hds (decide (n.val < 0)) (by
    intro hneg
    have hlo := n.min_le
    by_contra hunsigned
    simp only [IntType.typemin, hunsigned] at hlo
    simp only [decide_eq_true_eq] at hneg
    simp at hlo
    omega) (by rw [hvalue, hsigned]; exact n.min_le) (by rw [hvalue, hsigned]; exact n.le_max)
  rwa [hvalue, hsigned] at h

end Strings

-- The text of a machine integer is what one writes by hand, padded as far as an Int can count; it has
-- as many digits as `ndigits` says and it is read back, unless it is the empty text of a zero without
-- padding. The special writers write what the generic one does.
theorem integer_text_is_exact (mem : ℕ → UInt8) (T : IntType) (n : MachineInt T) (b : ℕ) (hb : 2 ≤ b) (hsmall : b ≤ 62)
    (p : ℤ) :
    (n.val < 0 ∧ Int64.typemax ≤ p → string mem T n b p = .error .inexactError) ∧
    (¬ (n.val < 0 ∧ Int64.typemax ≤ p) → ∃ text, string mem T n b p = .ok text ∧
      characters text = handwritten b n.val (min p Int64.typemax) ∧
      (n.val = 0 ∧ p ≤ 0 → text = []) ∧
      (n.val ≠ 0 ∨ 1 ≤ p →
        (∃ count, ndigits T n.val b 1 = .ok count ∧
          (text.length : ℤ) = signWidth (decide (n.val < 0)) + max (min p Int64.typemax) count) ∧
        parse T (characters text) (some b) = .ok n.val)) ∧
    ∀ (w : Width) (x : ℕ) (pad : ℤ) (neg : Bool), x < 2 ^ w.bits → pad ≤ Int64.typemax →
      bin mem w x pad neg = base mem ⟨false, w⟩ 2 x pad neg ∧ oct mem w x pad neg = base mem ⟨false, w⟩ 8 x pad neg ∧
      dec mem w x pad neg = base mem ⟨false, w⟩ 10 x pad neg ∧ hex mem w x pad neg = base mem ⟨false, w⟩ 16 x pad neg := by
  refine ⟨string_error mem n hb hsmall p, ?_, ?_⟩
  · intro hlength
    obtain ⟨text, htext, rfl⟩ := string_ok mem n hb hsmall p hlength
    have hmax : Int64.typemax = 9223372036854775807 := rfl
    refine ⟨_, htext, characters_text hb hsmall n.val _, ?_, ?_⟩
    · rintro ⟨hzero, hpad⟩
      have hnone : (max (min p Int64.typemax) ((Nat.digits b 0).length : ℤ)).toNat = 0 := by
        rw [Nat.digits_zero, List.length_nil]
        omega
      rw [hzero, Int.natAbs_zero, hnone]
      rfl
    · intro hdigit
      have hcount : n.val ≠ 0 → 0 < (Nat.digits b n.val.natAbs).length := by
        intro hne
        rw [List.length_pos_iff, Nat.digits_ne_nil_iff_ne_zero]
        omega
      refine ⟨⟨_, ndigits_machine n hb hsmall 1, ?_⟩, parse_text n hb hsmall _ (by omega)⟩
      rw [length_text]
      omega
  · intro w x pad neg hx hpad
    exact ⟨(bin_spec mem neg hx hpad).trans (base_spec mem neg (by omega) (by omega) hx hpad).symm,
      (oct_spec mem neg hx hpad).trans (base_spec mem neg (by omega) (by omega) hx hpad).symm,
      (dec_spec mem neg hx hpad).trans (base_spec mem neg (by omega) (by omega) hx hpad).symm,
      (hex_spec mem neg hx hpad).trans (base_spec mem neg (by omega) (by omega) hx hpad).symm⟩

-- The smallest Int8 to the base 7, padded to four digits.
theorem integer_text_is_exact_min :
    ∃ text, string (fun _ => 0) ⟨true, .w8⟩ ⟨-128, by decide, by decide⟩ 7 4 = .ok text ∧
      characters text = handwritten 7 (-128) 4 ∧ parse ⟨true, .w8⟩ (characters text) (some 7) = .ok (-128) := by
  obtain ⟨text, htext, hwritten, -, hback⟩ :=
    (integer_text_is_exact (fun _ => 0) ⟨true, .w8⟩ ⟨-128, by decide, by decide⟩ 7 (by decide) (by decide) 4).2.1
      (by decide)
  exact ⟨text, htext, hwritten, (hback (.inl (by decide))).2⟩

-- Zero with a padding of zero has no digit at all: the count is not that of `ndigits`, and there is
-- nothing to read back.
theorem string_zero_without_padding :
    string (fun _ => 0) Int64 ⟨0, by decide, by decide⟩ 10 0 = .ok [] ∧ ndigits Int64 0 10 1 = .ok 1 ∧
      ¬ (([] : List UInt8).length : ℤ) = max 0 1 ∧ parse Int64 (characters []) (some 10) = .error .empty := by
  decide

end Joolia.IntFuncs
