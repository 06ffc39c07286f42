import Joolia.Base.IntFuncs.Text
import Joolia.Base.Strings.Decode
import Joolia.Stdlib.Printf.Theorems
import Joolia.Stdlib.Printf.Writing

namespace Joolia.Printf

open Fallible Packing
open Strings (Chr bswap ismalformed isoverlong unsafeCodepoint writeChar writeLoop)

section Characters

theorem exists_pack (c : Chr) : ∃ b0 b1 b2 b3 : BitVec 8, c = pack b0 b1 b2 b3 := by
  have hc := c.isLt
  refine ⟨BitVec.ofNat 8 (c.toNat / 2 ^ 24), BitVec.ofNat 8 (c.toNat / 2 ^ 16), BitVec.ofNat 8 (c.toNat / 2 ^ 8),
    BitVec.ofNat 8 c.toNat, ?_⟩
  apply eq_pack
  simp only [BitVec.toNat_ofNat]
  omega

theorem length_writeChar_pos (c : Chr) : 0 < (writeChar c).length := by
  obtain ⟨b0, b1, b2, b3, rfl⟩ := exists_pack c
  rw [Strings.writeChar_pack]
  exact Nat.succ_pos _

-- The bytes after the first of a character of one byte are zero.
theorem eq_pack_of_length {c : Chr} (h : (writeChar c).length ≤ 1) : ∃ b : BitVec 8, c = pack b 0#8 0#8 0#8 := by
  obtain ⟨b0, b1, b2, b3, rfl⟩ := exists_pack c
  rw [Strings.writeChar_pack] at h
  by_cases hzero : b3 = 0#8 ∧ b2 = 0#8 ∧ b1 = 0#8
  · obtain ⟨rfl, rfl, rfl⟩ := hzero
    exact ⟨b0, rfl⟩
  · rw [if_neg hzero] at h
    simp at h

theorem ctz_div {x : BitVec 32} {t : ℕ} (ht : t ≤ 3) (hlow : x.toNat % 2 ^ (8 * t) = 0) (hbyte : x.toNat % 2 ^ (8 * t + 8) ≠ 0) :
    x.ctz.toNat / 8 = t := by
  have hall : ∀ k < 32, ∀ t ≤ 3, k &&& 56 = 8 * t → k / 8 = t := by decide
  have hne : x ≠ 0#32 := by
    rintro rfl
    exact hbyte (Nat.zero_mod _)
  exact hall _ (BitVec.lt_of_getLsbD (BitVec.getLsbD_true_ctz_of_ne_zero hne)) t ht (trailingZeros_place ht hlow hbyte)

theorem ncodeunits_of_ctz {c : Chr} {t : ℕ} (ht : t ≤ 3) (hlow : c.toNat % 2 ^ (8 * t) = 0) (hbyte : c.toNat % 2 ^ (8 * t + 8) ≠ 0) :
    ncodeunits c = 4 - t := by
  have hne : c ≠ 0 := by
    rintro rfl
    exact hbyte (Nat.zero_mod _)
  rw [ncodeunits, ctz_div ht hlow hbyte, if_neg hne, Int.add_zero]

theorem ncodeunits_eq (c : Chr) : ncodeunits c = (writeChar c).length := by
  obtain ⟨b0, b1, b2, b3, rfl⟩ := exists_pack c
  have h0 := b0.isLt
  have h1 := b1.isLt
  have h2 := b2.isLt
  have h3 := b3.isLt
  have hzero : ∀ b : BitVec 8, b ≠ 0#8 → b.toNat ≠ 0 := fun b hb h => hb (BitVec.eq_of_toNat_eq h)
  rw [Strings.writeChar_pack]
  by_cases hb3 : b3 = 0#8
  · subst hb3
    by_cases hb2 : b2 = 0#8
    · subst hb2
      by_cases hb1 : b1 = 0#8
      · subst hb1
        by_cases hb0 : b0 = 0#8
        · subst hb0
          set_option maxRecDepth 20000 in decide
        · have hne := hzero b0 hb0
          rw [ncodeunits_of_ctz (t := 3) (by decide) (by rw [toNat_pack]; simp) (by rw [toNat_pack]; simp; omega)]
          simp
      · have hne := hzero b1 hb1
        rw [ncodeunits_of_ctz (t := 2) (by decide) (by rw [toNat_pack]; simp; omega) (by rw [toNat_pack]; simp; omega)]
        simp [hb1]
    · have hne := hzero b2 hb2
      rw [ncodeunits_of_ctz (t := 1) (by decide) (by rw [toNat_pack]; simp; omega) (by rw [toNat_pack]; simp; omega)]
      simp [hb2]
  · have hne := hzero b3 hb3
    rw [ncodeunits_of_ctz (t := 0) (by decide) (Nat.mod_one _) (by rw [toNat_pack]; simp; omega)]
    simp [hb3]

variable {utf8proc_charwidth : BitVec 32 → ℤ} (hwidth : ∀ u, 0 ≤ utf8proc_charwidth u ∧ utf8proc_charwidth u ≤ 2)
  (hascii : ∀ u < 0x80#32, utf8proc_charwidth u ≤ 1)
include hwidth hascii

-- A character takes no more columns than bytes.
theorem textwidth_bounds (c : Chr) : 0 ≤ textwidth utf8proc_charwidth c ∧ textwidth utf8proc_charwidth c ≤ (writeChar c).length := by
  have hpos := length_writeChar_pos c
  have hw := hwidth (unsafeCodepoint c)
  unfold textwidth
  dsimp only
  split_ifs with hascii' hprint hbad
  · omega
  · omega
  · omega
  · refine ⟨hw.1, ?_⟩
    by_cases hlen : (writeChar c).length ≤ 1
    · obtain ⟨b, rfl⟩ := eq_pack_of_length hlen
      have hmal : ∀ b : BitVec 8, ismalformed (pack b 0#8 0#8 0#8) = false → unsafeCodepoint (pack b 0#8 0#8 0#8) < 0x80#32 := by decide +kernel
      simp only [Bool.or_eq_true, not_or, Bool.not_eq_true] at hbad
      have hone := hascii _ (hmal b hbad.1)
      omega
    · omega

end Characters

section Writes

-- `n` bytes from the position on, in whatever order they were stored
structure Writes (w w' : Writing) (n : ℤ) : Prop where
  nonneg : 0 ≤ n
  pos_eq : w'.pos = w.pos + n
  below : ∀ x ∈ w'.writes, x ∈ w.writes ∨ x.1 < w.pos + n

variable {w w' w'' : Writing} {n m : ℤ}

theorem Writes.refl (w : Writing) : Writes w w 0 := ⟨le_refl 0, (Int.add_zero _).symm, fun _ hx => .inl hx⟩

theorem Writes.trans (h : Writes w w' n) (h' : Writes w' w'' m) : Writes w w'' (n + m) := by
  have hn := h.nonneg
  have hm := h'.nonneg
  have hpos := h.pos_eq
  refine ⟨by omega, by rw [h'.pos_eq, hpos, Int.add_assoc], fun x hx => ?_⟩
  rcases h'.below x hx with hx | hlt
  · rcases h.below x hx with hx | hlt
    · exact .inl hx
    · exact .inr (by omega)
  · exact .inr (by omega)

theorem writes_put (w : Writing) (b : UInt8) : Writes w (w.put b) 1 := by
  refine ⟨by omega, rfl, fun x hx => ?_⟩
  rcases List.mem_append.1 hx with hx | hx
  · exact .inl hx
  · obtain rfl := List.mem_singleton.1 hx
    exact .inr (show w.pos + 0 < w.pos + 1 by omega)

theorem writes_fill (b : UInt8) (w : Writing) (n : ℕ) : Writes w (w.fill b n) n := by
  induction n generalizing w with
  | zero => exact .refl w
  | succ n ih =>
      have h := (writes_put w b).trans (ih (w.put b))
      rwa [Int.add_comm, ← Nat.cast_succ] at h

theorem writes_putAll (w : Writing) (bytes : List UInt8) : Writes w (w.putAll bytes) bytes.length := by
  induction bytes generalizing w with
  | nil => exact .refl w
  | cons b bytes ih =>
      have h := (writes_put w b).trans (ih (w.put b))
      rwa [Int.add_comm, ← Nat.cast_succ] at h

theorem writecharLoop_eq (left : ℕ) (w : Writing) (u : BitVec 32) :
    writecharLoop left w u = w.putAll ((writeLoop left u).map UInt8.ofBitVec) := by
  induction left generalizing w u with
  | zero => rfl
  | succ left ih =>
      rw [writecharLoop, writeLoop]
      split_ifs
      · rfl
      · rw [ih, List.map_cons]
        rfl

theorem writes_writechar (w : Writing) (c : Chr) : Writes w (writechar w c) (writeChar c).length := by
  have h := writes_putAll w ((writeChar c).map UInt8.ofBitVec)
  rw [List.length_map] at h
  rwa [writechar, writecharLoop_eq]

-- The blanks around `len` columns in a field, on the side that is wanted.
def blanks (width len : ℤ) : ℤ := max 0 (width - len)

theorem writes_pad (w : Writing) (wanted : Bool) {width len : ℤ} (hwidth : width < 2 ^ 63) (hlen : 0 ≤ len) :
    Writes w (w.pad wanted width len) (if wanted then blanks width len else 0) := by
  unfold Writing.pad blanks
  cases wanted with
  | false => exact .refl w
  | true =>
      by_cases hgt : width > len
      · have hdiff : int64 (width - len) = width - len := by
          rw [int64, Int.bmod_eq_of_le] <;> omega
        have h := writes_fill (byte ' ') w (int64 (width - len)).toNat
        rw [hdiff] at h ⊢
        rw [if_pos (by simpa using hgt), if_pos rfl]
        rwa [max_eq_right (by omega), ← Int.toNat_of_nonneg (show 0 ≤ width - len by omega)]
      · rw [if_neg (by simpa using hgt), if_pos rfl, max_eq_left (by omega)]
        exact .refl w

-- A field with its padding, which stands on one side.
theorem Writes.between {width len : ℤ} (leftalign : Bool) (hwidth : width < 2 ^ 63) (hlen : 0 ≤ len)
    (h : Writes (w.pad (!leftalign) width len) w' n) : Writes w (w'.pad leftalign width len) (n + blanks width len) := by
  have hall := ((writes_pad w (!leftalign) hwidth hlen).trans h).trans (writes_pad w' leftalign hwidth hlen)
  cases leftalign with
  | false => simpa [Int.add_comm] using hall
  | true => simpa using hall

end Writes

section Conversions

variable {utf8proc_charwidth : BitVec 32 → ℤ} {spec : Spec} {arg : Arg} {l : ℤ}

-- The fields of a specifier are machine integers, and at most one side of a field is padded.
structure Spec.Valid (spec : Spec) : Prop where
  width_lt : spec.width < 2 ^ 63
  precision_lt : spec.precision < 2 ^ 63
  one_side : ¬(spec.leftalign = true ∧ spec.zero = true)

-- An estimate that covers what is written
structure Covers (l : ℤ) (written : Writing → Except PrintError Writing) : Prop where
  nonneg : 0 ≤ l
  written : ∀ w, ∃ w' n, written w = .ok w' ∧ Writes w w' n ∧ n ≤ l

theorem checked_add_eq_ok {x y z : ℤ} : checked_add x y = .ok z ↔ x + y = z ∧ -2 ^ 63 ≤ z ∧ z < 2 ^ 63 := by
  unfold checked_add
  split_ifs with h
  · constructor
    · rintro ⟨⟩
      exact ⟨rfl, h⟩
    · rintro ⟨rfl, -⟩
      rfl
  · simp only [false_iff]
    rintro ⟨rfl, hrange⟩
    exact h hrange

section Widths

variable (hwidth : ∀ u, 0 ≤ utf8proc_charwidth u ∧ utf8proc_charwidth u ≤ 2) (hascii : ∀ u < 0x80#32, utf8proc_charwidth u ≤ 1)
include hwidth hascii

theorem covers_chars (hvalid : spec.Valid) (hl : plengthChars utf8proc_charwidth spec arg = .ok l) :
    Covers l fun w => fmtChars utf8proc_charwidth w arg spec := by
  unfold plengthChars at hl
  obtain ⟨c, hc, hl⟩ := bind_eq_ok.1 hl
  obtain ⟨rfl, -⟩ := checked_add_eq_ok.1 hl
  obtain ⟨hnonneg, hle⟩ := textwidth_bounds hwidth hascii c
  rw [ncodeunits_eq]
  have hlen := length_writeChar_pos c
  refine ⟨by omega, fun w => ⟨_, _, ?_, (writes_writechar _ c).between spec.leftalign hvalid.width_lt hnonneg, ?_⟩⟩
  · rw [fmtChars, hc, ok_bind]
    rfl
  · unfold blanks
    omega

theorem textwidthStr_le (str : List Chr) : textwidthStr utf8proc_charwidth str ≤ sizeofStr str := by
  induction str with
  | nil => exact le_refl 0
  | cons c str ih =>
      have hle := (textwidth_bounds hwidth hascii c).2
      simp only [textwidthStr, sizeofStr, List.map_cons, List.sum_cons, List.flatMap_cons, List.length_append, Nat.cast_add] at ih ⊢
      omega

theorem textwidthStr_nonneg (str : List Chr) : 0 ≤ textwidthStr utf8proc_charwidth str := by
  induction str with
  | nil => exact le_refl 0
  | cons c str ih =>
      have hnonneg := (textwidth_bounds hwidth hascii c).1
      simp only [textwidthStr, List.map_cons, List.sum_cons] at ih ⊢
      omega

-- The columns that are used up, and those of the bytes that take none, bound the bytes.
theorem writes_writeChars (str : List Chr) (w : Writing) {p : ℤ} (hlow : -1 ≤ p) (hhigh : p < 2 ^ 63) :
    ∃ n, Writes w (writeChars utf8proc_charwidth w p str).1 n ∧ (p < 0 → n = 0 ∧ (writeChars utf8proc_charwidth w p str).2 < 0) ∧
      n + max 0 (writeChars utf8proc_charwidth w p str).2 ≤ max 0 p + (sizeofStr str - textwidthStr utf8proc_charwidth str) := by
  induction str generalizing w p with
  | nil => exact ⟨0, .refl w, fun hp => ⟨rfl, hp⟩, by simp [writeChars, sizeofStr, textwidthStr]⟩
  | cons c str ih =>
      obtain ⟨hnonneg, hle⟩ := textwidth_bounds hwidth hascii c
      have hlen : (writeChar c).length ≤ 4 := by
        obtain ⟨b0, b1, b2, b3, rfl⟩ := exists_pack c
        rw [Strings.writeChar_pack]
        split_ifs <;> simp
      have hrest := textwidthStr_le hwidth hascii str
      have hstep : int64 (p - textwidth utf8proc_charwidth c) = p - textwidth utf8proc_charwidth c := by
        rw [int64, Int.bmod_eq_of_le] <;> omega
      have hsize : sizeofStr (c :: str) = (writeChar c).length + sizeofStr str := by
        simp only [sizeofStr, List.flatMap_cons, List.length_append, Nat.cast_add]
      have hcolumns : textwidthStr utf8proc_charwidth (c :: str) =
          textwidth utf8proc_charwidth c + textwidthStr utf8proc_charwidth str := by
        simp only [textwidthStr, List.map_cons, List.sum_cons]
      rw [writeChars, hstep, hsize, hcolumns]
      split_ifs with hneg
      · exact ⟨0, .refl w, fun _ => ⟨rfl, hneg⟩, by dsimp only; omega⟩
      · obtain ⟨n, hwrites, -, hn⟩ := ih (writechar w c) (not_lt.1 hneg |>.trans' (by decide)) (by omega)
        exact ⟨_, (writes_writechar w c).trans hwrites, fun hp => by omega, by omega⟩

-- The columns of a string with its quotes, as far as the precision lets them stand
def shownWidth (spec : Spec) (arg : Arg) (sw : ℤ) : ℤ :=
  let slen := sw + (if spec.hash then (if arg.isString then 2 else 1) else 0)
  if spec.precision = -1 then slen else min slen spec.precision

theorem writes_fmtStrings {str : List Chr} (hvalid : spec.Valid) (hstr : arg.string = .ok str) (w : Writing)
    (hlow : 0 ≤ shownWidth spec arg (textwidthStr utf8proc_charwidth str)) (hhigh : shownWidth spec arg (textwidthStr utf8proc_charwidth str) < 2 ^ 63) :
    ∃ w' k, fmtStrings utf8proc_charwidth w arg spec = .ok w' ∧
      Writes w w' (k + blanks spec.width (shownWidth spec arg (textwidthStr utf8proc_charwidth str))) ∧
      if (spec.hash && arg.isString) ∧ shownWidth spec arg (textwidthStr utf8proc_charwidth str) = 0 then k = 1
      else k ≤ shownWidth spec arg (textwidthStr utf8proc_charwidth str) + (sizeofStr str - textwidthStr utf8proc_charwidth str) := by
  have hfmt : fmtStrings utf8proc_charwidth w arg spec = .ok (
      let op := shownWidth spec arg (textwidthStr utf8proc_charwidth str)
      let w := w.pad (!spec.leftalign) spec.width op
      let opened := if spec.hash && arg.isString then (w.put (byte '"'), int64 (op - 1)) else (w, op)
      let shown := writeChars utf8proc_charwidth opened.1 opened.2 str
      let w := if spec.hash && arg.isString && shown.2 > 0 then shown.1.put (byte '"') else shown.1
      w.pad spec.leftalign spec.width op) := by
    rw [fmtStrings, hstr, ok_bind]
    rfl
  rw [hfmt]
  generalize shownWidth spec arg (textwidthStr utf8proc_charwidth str) = op at hlow hhigh ⊢
  dsimp only
  cases hquoted : (spec.hash && arg.isString) with
  | false =>
      obtain ⟨n, hwrites, -, hn⟩ := writes_writeChars hwidth hascii str (w.pad (!spec.leftalign) spec.width op) (p := op) (by omega) hhigh
      refine ⟨_, n, rfl, ?_, ?_⟩
      · simpa using hwrites.between spec.leftalign hvalid.width_lt hlow
      · simp
        omega
  | true =>
      have hstep : int64 (op - 1) = op - 1 := by
        rw [int64, Int.bmod_eq_of_le] <;> omega
      obtain ⟨n, hwrites, hnone, hn⟩ := writes_writeChars hwidth hascii str ((w.pad (!spec.leftalign) spec.width op).put (byte '"'))
        (p := op - 1) (by omega) (by omega)
      have hopened := (writes_put (w.pad (!spec.leftalign) spec.width op) (byte '"')).trans hwrites
      simp only [if_true, hstep, Bool.true_and, true_and, decide_eq_true_eq]
      have hrest := textwidthStr_le hwidth hascii str
      by_cases hclose : 0 < (writeChars utf8proc_charwidth ((w.pad (!spec.leftalign) spec.width op).put (byte '"')) (op - 1) str).2
      · rw [if_pos hclose]
        refine ⟨_, _, rfl, (hopened.trans (writes_put _ (byte '"'))).between spec.leftalign hvalid.width_lt hlow, ?_⟩
        split_ifs with hzero
        · exact absurd hclose (by have := (hnone (by omega)).2; omega)
        · omega
      · rw [if_neg hclose]
        refine ⟨_, _, rfl, hopened.between spec.leftalign hvalid.width_lt hlow, ?_⟩
        split_ifs with hzero
        · rw [(hnone (by omega)).1, Int.add_zero]
        · omega

-- A quoted string of which nothing may be shown still gets its first quote.
def QuotesFit (utf8proc_charwidth : BitVec 32 → ℤ) (spec : Spec) (arg : Arg) : Prop :=
  spec.precision = 0 → spec.hash → arg.isString →
    ∀ str, arg.string = .ok str → textwidthStr utf8proc_charwidth str < sizeofStr str

theorem covers_strings_iff (hvalid : spec.Valid) (hlow : -1 ≤ spec.precision) (hl : plengthStrings utf8proc_charwidth spec arg = .ok l) :
    (Covers l fun w => fmtStrings utf8proc_charwidth w arg spec) ↔ QuotesFit utf8proc_charwidth spec arg := by
  unfold plengthStrings at hl
  obtain ⟨str, hstr, hl⟩ := bind_eq_ok.1 hl
  obtain ⟨p, hp, hl⟩ := bind_eq_ok.1 hl
  obtain ⟨rfl, -⟩ := checked_add_eq_ok.1 hl
  have hrest := textwidthStr_le hwidth hascii str
  have hnonneg := textwidthStr_nonneg hwidth hascii str
  have hprecision := hvalid.precision_lt
  -- what is shown is no wider than the estimate's columns, and empty only by the precision
  have hshown : 0 ≤ shownWidth spec arg (textwidthStr utf8proc_charwidth str) ∧
      shownWidth spec arg (textwidthStr utf8proc_charwidth str) ≤ p ∧ 0 ≤ p ∧ p < 2 ^ 63 ∧
      ((spec.hash && arg.isString) = true → (shownWidth spec arg (textwidthStr utf8proc_charwidth str) = 0 ↔ spec.precision = 0) ∧
        (spec.precision = 0 → p = 0)) := by
    unfold shownWidth
    by_cases hall : spec.precision = -1
    · rw [if_pos hall] at hp ⊢
      obtain ⟨hsum, -, hlt⟩ := checked_add_eq_ok.1 hp
      cases hhash : spec.hash <;> cases hquoted : arg.isString <;> simp [hhash] at hsum ⊢ <;> omega
    · rw [if_neg hall] at hp ⊢
      injection hp with hp
      cases hhash : spec.hash <;> cases hquoted : arg.isString <;> simp <;> omega
  obtain ⟨hlo, hle, hpos, hlt, hzero⟩ := hshown
  constructor
  · intro h hprec hhash hquoted str' hstr'
    obtain rfl : str = str' := by
      rw [hstr] at hstr'
      exact Except.ok.inj hstr'
    obtain ⟨w', k, hfmt, hwrites, hk⟩ := writes_fmtStrings hwidth hascii hvalid hstr ⟨0, []⟩ hlo (by omega)
    obtain ⟨w'', n, hfmt', hwrites', hn⟩ := h.written ⟨0, []⟩
    obtain rfl : w' = w'' := Except.ok.inj (hfmt.symm.trans hfmt')
    have hpos_eq := hwrites.pos_eq.symm.trans hwrites'.pos_eq
    obtain ⟨hiff, hp0⟩ := hzero (by simp [hhash, hquoted])
    rw [if_pos ⟨by simp [hhash, hquoted], hiff.2 hprec⟩] at hk
    have hp0 := hp0 hprec
    unfold blanks at hpos_eq
    omega
  · intro hfit
    refine ⟨by omega, fun w => ?_⟩
    obtain ⟨w', k, hfmt, hwrites, hk⟩ := writes_fmtStrings hwidth hascii hvalid hstr w hlo (by omega)
    refine ⟨w', _, hfmt, hwrites, ?_⟩
    unfold blanks
    split_ifs at hk with hbare
    · obtain ⟨hquoted, hshown⟩ := hbare
      obtain ⟨hiff, hp0⟩ := hzero hquoted
      have hprec := hiff.1 hshown
      simp only [Bool.and_eq_true] at hquoted
      have hroom := hfit hprec hquoted.1 hquoted.2 str hstr
      omega
    · omega

end Widths

section Integers

theorem writeDigits_spec (type : UInt8) (w : Writing) (i x : ℕ) :
    (writeDigits type w i x).pos = w.pos ∧ ∀ y ∈ (writeDigits type w i x).writes, y ∈ w.writes ∨ y.1 < w.pos + i := by
  induction i generalizing w x with
  | zero => exact ⟨rfl, fun y hy => .inl hy⟩
  | succ i ih =>
      obtain ⟨hpos, hbelow⟩ := ih (w.store i (digitByte type x)) (x / base type)
      refine ⟨hpos, fun y hy => ?_⟩
      rcases hbelow y hy with hy | hlt
      · rcases List.mem_append.1 hy with hy | hy
        · exact .inl hy
        · obtain rfl := List.mem_singleton.1 hy
          exact .inr (show w.pos + i < w.pos + (i + 1 : ℕ) by omega)
      · exact .inr (by have : (w.store i (digitByte type x)).pos = w.pos := rfl; omega)

theorem writes_digits (type : UInt8) (w : Writing) {n : ℤ} (hn : 0 ≤ n) (x : ℕ) :
    Writes w ((writeDigits type w n.toNat x).advance n) n := by
  obtain ⟨hpos, hbelow⟩ := writeDigits_spec type w n.toNat x
  refine ⟨hn, by rw [← hpos]; rfl, fun y hy => ?_⟩
  rcases hbelow y hy with hy | hlt
  · exact .inl hy
  · exact .inr (by omega)

theorem writes_sign (spec : Spec) (v : ℤ) (w : Writing) : Writes w (writeSign w spec v) (signWidth spec v) := by
  unfold writeSign signWidth
  by_cases hneg : v < 0
  · simpa [hneg] using writes_put w (byte '-')
  · cases hplus : spec.plus with
    | true => simpa [hneg] using writes_put w (byte '+')
    | false =>
        cases hspace : spec.space with
        | true => simpa [hneg] using writes_put w (byte ' ')
        | false => simpa [hneg] using Writes.refl w

theorem writes_basemark (spec : Spec) (w : Writing) : Writes w (writePrefix w spec) (prefixWidth spec) := by
  have hother : isHex (byte 'o') = false := by decide
  unfold writePrefix prefixWidth
  cases hhash : spec.hash with
  | false => simpa using Writes.refl w
  | true =>
      by_cases ho : spec.type = byte 'o'
      · simpa [ho, hother] using writes_put w (byte '0')
      · cases hhex : isHex spec.type with
        | false => simpa [ho] using Writes.refl w
        | true =>
            simp only [ho, decide_false, Bool.false_and, Bool.false_eq_true, if_false, Bool.true_and, if_true, Int.zero_add]
            refine ⟨by omega, rfl, fun x hx => ?_⟩
            rcases List.mem_append.1 hx with hx | hx
            · rcases List.mem_append.1 hx with hx | hx
              · exact .inl hx
              · obtain rfl := List.mem_singleton.1 hx
                exact .inr (show w.pos + 0 < w.pos + 2 by omega)
            · obtain rfl := List.mem_singleton.1 hx
              exact .inr (show w.pos + 1 < w.pos + 2 by omega)

theorem signWidth_bounds (spec : Spec) (v : ℤ) : 0 ≤ signWidth spec v ∧ signWidth spec v ≤ 1 := by
  unfold signWidth
  split_ifs <;> omega

theorem prefixWidth_bounds (spec : Spec) : 0 ≤ prefixWidth spec ∧ prefixWidth spec ≤ 3 := by
  unfold prefixWidth
  split_ifs <;> omega

theorem writes_fill_toNat (b : UInt8) (w : Writing) {n : ℤ} (hn : 0 ≤ n) : Writes w (w.fill b n.toNat) n := by
  have h := writes_fill b w n.toNat
  rwa [Int.toNat_of_nonneg hn] at h

theorem writes_zeros (spec : Spec) (n arglen arglen2 : ℤ) (w : Writing) :
    Writes w (writeZeros w spec n arglen arglen2) (if spec.zero && arglen2 < spec.width then spec.width - arglen2
      else if n < spec.precision then spec.precision - n else if arglen < arglen2 then arglen2 - arglen else 0) := by
  unfold writeZeros
  split_ifs with hzero hprec hlen
  · simp only [Bool.and_eq_true, decide_eq_true_eq] at hzero
    exact writes_fill_toNat _ w (by omega)
  · exact writes_fill_toNat _ w (by omega)
  · exact writes_fill_toNat _ w (by omega)
  · exact .refl w

-- The bytes of an integer: at least its digits with what stands before them, at most the width or what the precision asks for.
theorem writes_fmtInts {n v : ℤ} (hvalid : spec.Valid) (hn : arg.ndigits (base spec.type) = .ok n) (hv : arg.integer = .ok v) (hpos : 0 < n)
    (w : Writing) :
    ∃ w' k, fmtInts w arg spec = .ok w' ∧ Writes w w' k ∧ n + signWidth spec v + prefixWidth spec ≤ k ∧
      k ≤ max spec.width (max n spec.precision + signWidth spec v + prefixWidth spec) := by
  have hs := signWidth_bounds spec v
  have hp := prefixWidth_bounds spec
  have hside := hvalid.one_side
  have hwidth := hvalid.width_lt
  rw [fmtInts, hn, ok_bind, hv, ok_bind]
  dsimp only
  generalize hlen : n + signWidth spec v + prefixWidth spec = arglen
  have hlen2 : 0 ≤ arglen2 spec n arglen := by
    unfold arglen2
    split_ifs <;> omega
  have hleft := writes_pad w (!spec.leftalign && !spec.zero) hwidth hlen2
  have hsign := writes_sign spec v (w.pad (!spec.leftalign && !spec.zero) spec.width (arglen2 spec n arglen))
  have hwritten := (((hleft.trans hsign).trans (writes_basemark spec _)).trans (writes_zeros spec n arglen (arglen2 spec n arglen) _)).trans
    (writes_digits spec.type _ (le_of_lt hpos) v.natAbs)
  refine ⟨_, _, rfl, hwritten.trans (writes_pad _ spec.leftalign hwidth hlen2), ?_, ?_⟩
  · have hblanks : 0 ≤ blanks spec.width (arglen2 spec n arglen) := le_max_left _ _
    split_ifs <;> simp_all <;> omega
  · unfold arglen2 blanks at *
    cases hleft : spec.leftalign <;> cases hzero : spec.zero <;> simp [hleft, hzero] at hside ⊢ <;> split_ifs <;> omega

-- The estimate leaves five bytes for the sign, the prefix and a negative precision.
def SignsFit (spec : Spec) (arg : Arg) : Prop :=
  ∀ n v, arg.ndigits (base spec.type) = .ok n → arg.integer = .ok v →
    signWidth spec v + prefixWidth spec ≤ spec.precision + MAX_FMT_CHARS_WIDTH ∨ n + signWidth spec v + prefixWidth spec ≤ spec.width

theorem ndigits_pos {b : ℕ} {n : ℤ} (hn : arg.ndigits b = .ok n) (hb : 2 ≤ b) (hsmall : b ≤ 62) : 0 < n ∧ ∃ v, arg.integer = .ok v := by
  cases arg with
  | char c => exact absurd hn (by simp [Arg.ndigits])
  | str s => exact absurd hn (by simp [Arg.ndigits])
  | int T x =>
      rw [Arg.ndigits, IntFuncs.ndigits_machine x hb hsmall] at hn
      injection hn with hn
      exact ⟨hn ▸ lt_of_lt_of_le one_pos (le_max_left _ _), x.val, rfl⟩

theorem base_range (type : UInt8) : 2 ≤ base type ∧ base type ≤ 62 := by
  unfold base
  split_ifs <;> decide

theorem covers_ints_iff (hvalid : spec.Valid) (hl : plengthInts spec arg = .ok l) :
    (Covers l fun w => fmtInts w arg spec) ↔ SignsFit spec arg := by
  unfold plengthInts at hl
  obtain ⟨n, hn, hl⟩ := bind_eq_ok.1 hl
  obtain ⟨sum, hsum, hl⟩ := bind_eq_ok.1 hl
  obtain ⟨len, hlen, hl⟩ := bind_eq_ok.1 hl
  obtain ⟨rfl, -⟩ := checked_add_eq_ok.1 hsum
  obtain ⟨rfl, -⟩ := checked_add_eq_ok.1 hlen
  injection hl with hl
  obtain ⟨hpos, v, hv⟩ := ndigits_pos hn (base_range spec.type).1 (base_range spec.type).2
  have hs := signWidth_bounds spec v
  have hp := prefixWidth_bounds spec
  have hfive : MAX_FMT_CHARS_WIDTH = 5 := rfl
  constructor
  · intro h n' v' hn' hv'
    obtain rfl : n = n' := Except.ok.inj (hn.symm.trans hn')
    obtain rfl : v = v' := Except.ok.inj (hv.symm.trans hv')
    obtain ⟨w', k, hfmt, hwrites, hlow, -⟩ := writes_fmtInts hvalid hn hv hpos ⟨0, []⟩
    obtain ⟨w'', m, hfmt', hwrites', hm⟩ := h.written ⟨0, []⟩
    obtain rfl : w' = w'' := Except.ok.inj (hfmt.symm.trans hfmt')
    have hpos_eq := hwrites.pos_eq.symm.trans hwrites'.pos_eq
    omega
  · intro hfit
    have hroom := hfit n v hn hv
    refine ⟨by omega, fun w => ?_⟩
    obtain ⟨w', k, hfmt, hwrites, -, hhigh⟩ := writes_fmtInts hvalid hn hv hpos w
    exact ⟨w', k, hfmt, hwrites, by omega⟩

end Integers

section Statement

-- A conversion, after its dynamic fields were read, for which the estimate suffices.
def Roomy (utf8proc_charwidth : BitVec 32 → ℤ) (spec : Spec) (arg : Arg) : Prop :=
  (isInts spec.type → SignsFit spec arg) ∧ (isStrings spec.type → -1 ≤ spec.precision ∧ QuotesFit utf8proc_charwidth spec arg)

def AllRoomy (utf8proc_charwidth : BitVec 32 → ℤ) (args : List Arg) (argp : ℕ) : List Spec → Prop
  | [] => True
  | spec :: fmts => ∀ spec' argp' arg, rmdynamic spec args argp = .ok (spec', argp') → argAt args argp' = .ok arg →
      Roomy utf8proc_charwidth spec' arg ∧ AllRoomy utf8proc_charwidth args (argp' + 1) fmts

-- What is promised of the buffer, whenever its length can be computed
def WithinBuffer (utf8proc_charwidth : BitVec 32 → ℤ) (f : Format) (args : List Arg) : Prop :=
  ∀ len, computelen utf8proc_charwidth f.substringranges f.formats args = .ok len →
    0 ≤ len ∧ ∃ w, format utf8proc_charwidth f args = .ok w ∧ w.pos ≤ len ∧ ∀ x ∈ w.writes, x.1 ≤ len

end Statement

section Formats

set_option maxRecDepth 2000 in
theorem exclusive (type : UInt8) : (isInts type → isChars type = false ∧ isStrings type = false) ∧ (isChars type → isStrings type = false) := by
  have hints : ∀ t ∈ bytesOf "diuxXo", isChars t = false ∧ isStrings t = false := by decide
  have hchars : ∀ t ∈ bytesOf "cC", isStrings t = false := by decide
  exact ⟨fun h => hints type (List.contains_iff_mem.1 h), fun h => hchars type (List.contains_iff_mem.1 h)⟩

variable (hwidth : ∀ u, 0 ≤ utf8proc_charwidth u ∧ utf8proc_charwidth u ≤ 2) (hascii : ∀ u < 0x80#32, utf8proc_charwidth u ≤ 1)
include hwidth hascii

theorem covers_iff (hvalid : spec.Valid) (hlow : isStrings spec.type → -1 ≤ spec.precision) (hl : plengthArg utf8proc_charwidth spec arg = .ok l) :
    (Covers l fun w => fmtArg utf8proc_charwidth w arg spec) ↔ Roomy utf8proc_charwidth spec arg := by
  obtain ⟨hints, hchars⟩ := exclusive spec.type
  unfold plengthArg at hl
  unfold fmtArg Roomy
  by_cases hi : isInts spec.type
  · rw [if_pos hi] at hl
    simp only [hi, (hints hi).2, if_true, Bool.false_eq_true, false_imp_iff, and_true, true_imp_iff]
    exact covers_ints_iff hvalid hl
  · by_cases hc : isChars spec.type
    · rw [if_neg hi, if_pos hc] at hl
      simp only [hi, hc, hchars hc, if_true, if_false, Bool.false_eq_true, false_imp_iff, and_true, iff_true]
      exact covers_chars hwidth hascii hvalid hl
    · by_cases hs : isStrings spec.type
      · rw [if_neg hi, if_neg hc, if_pos hs] at hl
        simp only [hi, hc, hs, if_true, if_false, Bool.false_eq_true, false_imp_iff, true_and, true_imp_iff, hlow hs]
        exact covers_strings_iff hwidth hascii hvalid (hlow hs) hl
      · rw [if_neg hi, if_neg hc, if_neg hs] at hl
        exact absurd hl (by simp)

omit hwidth hascii

theorem toInt_eq_ok {x y : ℤ} (h : toInt x = .ok y) : y = x ∧ x < 2 ^ 63 := by
  unfold toInt at h
  split_ifs at h with hrange
  injection h with h
  exact ⟨h.symm, hrange.2⟩

theorem rmdynamic_valid {args : List Arg} {argp argp' : ℕ} {spec' : Spec} (hside : ¬(spec.leftalign = true ∧ spec.zero = true))
    (h : rmdynamic spec args argp = .ok (spec', argp')) : spec'.Valid := by
  unfold rmdynamic at h
  obtain ⟨⟨width, argp₁⟩, -, h⟩ := bind_eq_ok.1 h
  obtain ⟨⟨precision, argp₂⟩, -, h⟩ := bind_eq_ok.1 h
  obtain ⟨width', hw, h⟩ := bind_eq_ok.1 h
  obtain ⟨precision', hp, h⟩ := bind_eq_ok.1 h
  cases h
  obtain ⟨rfl, hw⟩ := toInt_eq_ok hw
  obtain ⟨rfl, hp⟩ := toInt_eq_ok hp
  refine ⟨hw, hp, fun ⟨hleft, hzero⟩ => hside ⟨hleft, ?_⟩⟩
  by_cases hcut : spec.dynamic_precision && spec.zero && isInts spec.type && precision' > 0
  · exact absurd hzero (by simp [hcut])
  · rwa [if_neg hcut] at hzero

-- What the parser promises of its results.
structure Format.Valid (f : Format) : Prop where
  ranges : f.substringranges.length = f.formats.length + 1
  one_side : ∀ spec ∈ f.formats, ¬(spec.leftalign = true ∧ spec.zero = true)

theorem parseSpec_one_side {last_percent_pos : ℕ} {cur : Cursor} {res : Spec × ℕ × Cursor} (h : parseSpec last_percent_pos cur = .ok res) :
    ¬(res.1.leftalign = true ∧ res.1.zero = true) := by
  unfold parseSpec at h
  obtain ⟨flags, -, h⟩ := bind_eq_ok.1 h
  obtain ⟨width, -, h⟩ := bind_eq_ok.1 h
  obtain ⟨prec, -, h⟩ := bind_eq_ok.1 h
  obtain ⟨cur', -, h⟩ := bind_eq_ok.1 h
  obtain ⟨spec', htype, h⟩ := bind_eq_ok.1 h
  cases h
  unfold parseType at htype
  dsimp only at htype
  split at htype
  · exact absurd htype (by simp)
  · cases htype
    dsimp only
    cases flags.1.leftalign with
    | false => simp
    | true =>
        simp only [Bool.not_true, Bool.and_false, true_and, Bool.not_eq_true]
        split_ifs <;> rfl

theorem parseText_valid {fuel start : ℕ} {b : UInt8} {rest : List UInt8} {fmts : List Spec} {strs : List UnitRange} {numarguments : ℕ}
    (h : parseText fuel start b rest = .ok (fmts, strs, numarguments)) :
    strs.length = fmts.length + 1 ∧ ∀ spec ∈ fmts, ¬(spec.leftalign = true ∧ spec.zero = true) := by
  induction fuel generalizing start b rest fmts strs numarguments with
  | zero => exact absurd h (by simp [parseText])
  | succ fuel ih =>
      unfold parseText at h
      obtain ⟨cur, -, h⟩ := bind_eq_ok.1 h
      cases hrest : cur.rest with
      | nil =>
          simp only [hrest] at h
          cases h
          exact ⟨rfl, by simp⟩
      | cons c rest =>
          simp only [hrest] at h
          obtain ⟨⟨spec, stars, cur'⟩, hspec, h⟩ := bind_eq_ok.1 h
          obtain ⟨⟨fmts', strs', numarguments'⟩, hlater, h⟩ := bind_eq_ok.1 h
          cases h
          obtain ⟨hlength, hsides⟩ := ih hlater
          refine ⟨by rw [List.length_cons, List.length_cons, hlength], fun spec' hmem => ?_⟩
          rcases List.mem_cons.1 hmem with rfl | hmem
          · exact parseSpec_one_side hspec
          · exact hsides spec' hmem

theorem Format.new_valid {f : List UInt8} {format : Format} (h : Format.new f = .ok format) : format.Valid := by
  unfold Format.new at h
  obtain ⟨⟨fmts, strs, numarguments⟩, hparse, h⟩ := bind_eq_ok.1 h
  cases h
  obtain ⟨hlength, hsides⟩ := parseText_valid hparse
  exact ⟨hlength, hsides⟩

theorem length_writeText (escapechar : Bool) (bytes : List UInt8) : (writeText escapechar bytes).1.length ≤ bytes.length := by
  induction bytes generalizing escapechar with
  | nil => cases escapechar <;> exact Nat.zero_le _
  | cons b bytes ih =>
      cases escapechar with
      | true => exact (ih false).trans (Nat.le_succ _)
      | false => exact Nat.succ_le_succ (ih _)

theorem length_text_le (str : List UInt8) (escapechar : Bool) (r : UnitRange) :
    ((writeText escapechar (substring str r)).1.length : ℤ) ≤ r.length := by
  have hle := length_writeText escapechar (substring str r)
  have htake : (substring str r).length ≤ (r.stop - r.start + 1).toNat := by
    rw [substring, List.length_take]
    exact Nat.min_le_left _ _
  unfold UnitRange.length
  omega

include hwidth hascii

-- Behind the conversions that are left, the position has moved by no more than what was reserved for them and for their texts.
theorem formatLoop_covered (f : Format) (args : List Arg) {fmts : List Spec} {strs : List UnitRange} {argp : ℕ} {len total : ℤ}
    (hlength : strs.length = fmts.length) (hsides : ∀ spec ∈ fmts, ¬(spec.leftalign = true ∧ spec.zero = true))
    (hroomy : AllRoomy utf8proc_charwidth args argp fmts) (htotal : computelenLoop utf8proc_charwidth args len argp fmts = .ok total)
    (w : Writing) (escapechar : Bool) :
    len ≤ total ∧ ∃ w' n, formatLoop utf8proc_charwidth f args w escapechar argp fmts strs = .ok w' ∧ Writes w w' n ∧
      n ≤ total - len + (strs.map UnitRange.length).sum := by
  induction fmts generalizing strs argp len w escapechar with
  | nil =>
      obtain rfl := List.length_eq_zero_iff.1 hlength
      injection htotal with htotal
      exact ⟨le_of_eq htotal, w, 0, rfl, .refl w, by simp [htotal]⟩
  | cons spec fmts ih =>
      obtain ⟨r, strs, rfl⟩ := List.exists_cons_of_ne_nil (l := strs) (by rintro rfl; simp at hlength)
      rw [List.length_cons, List.length_cons, Nat.succ_inj] at hlength
      rw [computelenLoop] at htotal
      obtain ⟨⟨l, argp'⟩, hplength, htotal⟩ := bind_eq_ok.1 htotal
      obtain ⟨len', hadd, htotal⟩ := bind_eq_ok.1 htotal
      obtain ⟨rfl, -⟩ := checked_add_eq_ok.1 hadd
      unfold plength at hplength
      obtain ⟨⟨spec', argp₁⟩, hspec, hplength⟩ := bind_eq_ok.1 hplength
      obtain ⟨arg, harg, hplength⟩ := bind_eq_ok.1 hplength
      obtain ⟨l', hl, hplength⟩ := bind_eq_ok.1 hplength
      cases hplength
      obtain ⟨hroom, hrooms⟩ := hroomy spec' argp₁ arg hspec harg
      have hvalid := rmdynamic_valid (hsides spec (by simp)) hspec
      have hcovers := (covers_iff hwidth hascii hvalid (fun hs => (hroom.2 hs).1) hl).2 hroom
      obtain ⟨w₁, n₁, hfmt, hwrites₁, hn₁⟩ := hcovers.written w
      have htext := length_text_le f.str escapechar r
      obtain ⟨hle, w₂, n₂, hloop, hwrites₂, hn₂⟩ := ih hlength (fun spec hmem => hsides spec (by simp [hmem])) hrooms htotal
        (w₁.putAll (writeText escapechar (substring f.str r)).1) (writeText escapechar (substring f.str r)).2
      have hnonneg := hcovers.nonneg
      refine ⟨by omega, w₂, _, ?_, (hwrites₁.trans (writes_putAll w₁ _)).trans hwrites₂, ?_⟩
      · rw [formatLoop, fmt, hspec, ok_bind]
        dsimp only
        rw [harg, ok_bind, hfmt, ok_bind]
        exact hloop
      · rw [List.map_cons, List.sum_cons]
        omega

end Formats

end Conversions

-- The buffer is long enough if every conversion, with its dynamic fields read, is covered by its own estimate; and of one conversion that
-- estimate covers exactly these.
theorem within_buffer {utf8proc_charwidth : BitVec 32 → ℤ} (hwidth : ∀ u, 0 ≤ utf8proc_charwidth u ∧ utf8proc_charwidth u ≤ 2)
    (hascii : ∀ u < 0x80#32, utf8proc_charwidth u ≤ 1) :
    (∀ (f : List UInt8) (format : Format) (args : List Arg), Format.new f = .ok format →
      AllRoomy utf8proc_charwidth args 0 format.formats → WithinBuffer utf8proc_charwidth format args) ∧
    ∀ (spec : Spec) (arg : Arg) (l : ℤ), spec.Valid → (isStrings spec.type → -1 ≤ spec.precision) →
      plengthArg utf8proc_charwidth spec arg = .ok l →
      ((Covers l fun w => fmtArg utf8proc_charwidth w arg spec) ↔ Roomy utf8proc_charwidth spec arg) := by
  refine ⟨fun f F args hnew hroomy len hlen => ?_, fun spec arg l hvalid hlow hl => covers_iff hwidth hascii hvalid hlow hl⟩
  obtain ⟨hranges, hsides⟩ := Format.new_valid hnew
  obtain ⟨r, strs, hstrs⟩ := List.exists_cons_of_ne_nil (l := F.substringranges) (by intro hnil; simp [hnil] at hranges)
  rw [hstrs, List.length_cons, Nat.succ_inj] at hranges
  rw [computelen, hstrs, List.map_cons, List.sum_cons] at hlen
  have htext := length_text_le F.str false r
  have hsum : 0 ≤ (strs.map UnitRange.length).sum := List.sum_nonneg (by
    intro x hx
    obtain ⟨r, -, rfl⟩ := List.mem_map.1 hx
    exact le_max_left _ _)
  obtain ⟨hle, w, n, hloop, hwrites, hn⟩ := formatLoop_covered hwidth hascii F args hranges hsides hroomy hlen
    ((⟨0, []⟩ : Writing).putAll (writeText false (substring F.str r)).1) (writeText false (substring F.str r)).2
  have hall := (writes_putAll ⟨0, []⟩ (writeText false (substring F.str r)).1).trans hwrites
  have hpos := hall.pos_eq
  refine ⟨by omega, w, ?_, by dsimp only at hpos; omega, fun x hx => ?_⟩
  · rw [format, hstrs]
    exact hloop
  · rcases hall.below x hx with hx | hlt
    · exact absurd hx (by simp)
    · dsimp only at hlt
      omega

-- Widths as they are for ASCII characters.
def asciiWidth (u : BitVec 32) : ℤ := if 0x20#32 ≤ u ∧ u ≠ 0x7f#32 then 1 else 0

theorem asciiWidth_bounds (u : BitVec 32) : 0 ≤ asciiWidth u ∧ asciiWidth u ≤ 1 := by
  unfold asciiWidth
  split_ifs <;> decide

def five : Arg := .int IntFuncs.Int64 ⟨5, by decide, by decide⟩

def minusHundred : Arg := .int IntFuncs.Int64 ⟨-100, by decide, by decide⟩

theorem within_buffer_five : WithinBuffer asciiWidth
    ⟨bytesOf "%5d!", [⟨0, -1⟩, ⟨3, 3⟩], [⟨byte 'd', false, false, false, false, false, 5, 0, false, false⟩], 1⟩ [five] := by
  have hbounds := asciiWidth_bounds
  refine (within_buffer (fun u => ⟨(hbounds u).1, (hbounds u).2.trans (by decide)⟩) fun u _ => (hbounds u).2).1 (bytesOf "%5d!") _ _
    (by decide +kernel) fun spec argp arg hspec _ => ⟨⟨fun _ n v _ _ => .inl ?_, fun h => ?_⟩, trivial⟩
  · cases hspec
    exact (add_le_add (signWidth_bounds _ v).2 (prefixWidth_bounds _).2).trans (by decide)
  · cases hspec
    exact absurd h (by decide)

-- A dynamic precision below zero takes the room of the digits themselves.
theorem negative_precision_overruns :
    ∃ format, Format.new (bytesOf "%.*d") = .ok format ∧ ¬WithinBuffer asciiWidth format [minusHundred, five] := by
  refine ⟨⟨bytesOf "%.*d", [⟨0, -1⟩, ⟨4, 3⟩], [⟨byte 'd', false, false, false, false, false, 0, 0, false, true⟩], 2⟩, by decide, fun h => ?_⟩
  obtain ⟨-, w, hformat, hpos, -⟩ := h 0 (by decide)
  have hone : format asciiWidth ⟨bytesOf "%.*d", [⟨0, -1⟩, ⟨4, 3⟩],
      [⟨byte 'd', false, false, false, false, false, 0, 0, false, true⟩], 2⟩ [minusHundred, five] = .ok ⟨1, [(0, byte '5')]⟩ := by decide
  rw [hone] at hformat
  injection hformat with hw
  subst hw
  exact absurd hpos (by decide)

end Joolia.Printf
