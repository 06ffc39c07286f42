import Joolia.Base.Escape.Digits

namespace Joolia.Strings

open Fallible Packing

-- A well-formed character beyond the last code point, which is written as an escape
-- sequence that `unescape_string` refuses.
def beyond (c : Chr) : Bool := ¬isoverlong c ∧ ¬ismalformed c ∧ 0x10ffff < unsafeCodepoint c

section Ascii

variable {l : List Byte} {b : Byte}

theorem isClosed_ascii {b : Byte} (hb : b.toNat < 0x80) : IsClosed [b] := by
  have hneed : need b = 0 := by
    have := need_eq b
    omega
  refine ⟨⟨by simp, by simp, ?_⟩, by change 1 = need b + 1; omega⟩
  intro j hj hlen
  simp only [List.length_singleton] at hlen
  omega

theorem IsEncoding.writeChar_eq (h : IsEncoding l) : writeChar (charOf l) = l := by
  have hle := h.length_le
  have hneed := need_le (byteAt l 0)
  refine writeChar_charOf h.pos (by omega) fun j hj hlen hzero => ?_
  have hcont := h.continuation j hj hlen
  rw [hzero] at hcont
  exact absurd hcont (by decide)

theorem IsEncoding.eq_of_charOf_eq {l' : List Byte} (h : IsEncoding l) (h' : IsEncoding l') (heq : charOf l = charOf l') : l = l' := by
  rw [← h.writeChar_eq, heq, h'.writeChar_eq]

-- ASCII characters are the single bytes below 0x80.
theorem IsEncoding.isascii_iff (h : IsEncoding l) : isascii (charOf l) = true ↔ (byteAt l 0).toNat < 0x80 := by
  have hswap : bswap (charOf l) = pack (byteAt l 3) (byteAt l 2) (byteAt l 1) (byteAt l 0) := by
    rw [charOf, bswap, extract_pack_zero, extract_pack_one, extract_pack_two, extract_pack_three, pack]
  have hvalue : (bswap (charOf l)).toNat < 0x80 ↔ (byteAt l 0).toNat < 0x80 := by
    rw [hswap, toNat_pack]
    rcases h.cases with ⟨b0, rfl⟩ | ⟨b0, b1, rfl, hneed, -⟩ | ⟨b0, b1, b2, rfl, hneed, -⟩ | ⟨b0, b1, b2, b3, rfl, hneed, -⟩
    · simp [byteAt]
    all_goals
      have hlead := need_eq b0
      simp only [byteAt, List.getD_cons_zero]
      omega
  simpa [isascii, BitVec.lt_def] using hvalue

theorem IsEncoding.eq_singleton (h : IsEncoding l) (hb : (byteAt l 0).toNat < 0x80) : l = [byteAt l 0] := by
  rcases h.cases with ⟨b0, rfl⟩ | ⟨b0, b1, rfl, hneed, -⟩ | ⟨b0, b1, b2, rfl, hneed, -⟩ | ⟨b0, b1, b2, b3, rfl, hneed, -⟩
  · rfl
  all_goals
    have hlead := need_eq b0
    simp only [byteAt, List.getD_cons_zero] at hb
    omega

-- An encoding is one byte, or it has no ASCII bytes.
theorem IsEncoding.eq_or_high (h : IsEncoding l) (hb : b ∈ l) : l = [b] ∨ 0x80 ≤ b.toNat := by
  have hcont : ∀ b, isContinuation b = true → 0x80 ≤ b.toNat := fun b hb => ((isContinuation_iff b).1 hb).1
  have hlead : ∀ b, 1 ≤ need b → 0x80 ≤ b.toNat := by
    intro b hneed
    have := need_eq b
    omega
  rcases h.cases with ⟨b0, rfl⟩ | ⟨b0, b1, rfl, hneed, h1⟩ | ⟨b0, b1, b2, rfl, hneed, h1, h2⟩ |
    ⟨b0, b1, b2, b3, rfl, hneed, h1, h2, h3⟩
  · exact .inl (by rw [List.mem_singleton.1 hb])
  · simp only [List.mem_cons, List.not_mem_nil, or_false] at hb
    rcases hb with rfl | rfl
    · exact .inr (hlead _ hneed)
    · exact .inr (hcont _ h1)
  · simp only [List.mem_cons, List.not_mem_nil, or_false] at hb
    rcases hb with rfl | rfl | rfl
    · exact .inr (hlead _ (by omega))
    · exact .inr (hcont _ h1)
    · exact .inr (hcont _ h2)
  · simp only [List.mem_cons, List.not_mem_nil, or_false] at hb
    rcases hb with rfl | rfl | rfl | rfl
    · exact .inr (hlead _ (by omega))
    · exact .inr (hcont _ h1)
    · exact .inr (hcont _ h2)
    · exact .inr (hcont _ h3)

theorem toNat_charOf_singleton (b : Byte) : (charOf [b]).toNat = b.toNat * 2 ^ 24 := by
  rw [show charOf [b] = pack b 0#8 0#8 0#8 by rfl, toNat_pack]
  simp

theorem charOf_singleton_lt (hb : b.toNat < 0x80) : charOf [b] < 0x80000000#32 := (pack_lt 0x80 rfl).2 hb

theorem unsafeCodepoint_ascii (hb : b.toNat < 0x80) : unsafeCodepoint (charOf [b]) = charOf [b] >>> 24 := by
  rw [unsafeCodepoint, if_pos (charOf_singleton_lt hb)]

theorem codepoint_ascii (hb : b.toNat < 0x80) : codepoint (charOf [b]) = .ok (charOf [b] >>> 24) := by
  rw [codepoint, if_pos (charOf_singleton_lt hb)]
  rfl

theorem toNat_shiftRight_singleton (b : Byte) : (charOf [b] >>> 24).toNat = b.toNat := by
  rw [BitVec.toNat_ushiftRight, toNat_charOf_singleton, Nat.shiftRight_eq_div_pow]
  omega

theorem not_beyond_ascii (hb : b.toNat < 0x80) : ¬beyond (charOf [b]) = true := by
  simp only [beyond, unsafeCodepoint_ascii hb, BitVec.lt_def, toNat_shiftRight_singleton, decide_eq_true_eq]
  simp only [BitVec.ofNat_eq_ofNat, BitVec.toNat_ofNat]
  omega

theorem charOf_singleton_inj {b b' : Byte} (h : charOf [b] = charOf [b']) : b = b' := by
  have := congrArg BitVec.toNat h
  rw [toNat_charOf_singleton, toNat_charOf_singleton] at this
  apply BitVec.eq_of_toNat_eq
  omega

end Ascii

section Form

-- A backslash, one of the letters for hexadecimal digits, and the digits.
def hexEscape (x : Byte) (n v : ℕ) : List (List Byte) := [0x5c#8] :: [x] :: (nibbles n v).map digitChar

theorem hexEscape_closed {x : Byte} (hx : x.toNat < 0x80) (n v : ℕ) : ∀ e ∈ hexEscape x n v, IsClosed e := by
  simp only [hexEscape, List.mem_cons, List.mem_map, forall_eq_or_imp]
  refine ⟨isClosed_ascii (by decide), isClosed_ascii hx, ?_⟩
  rintro e ⟨d, hd, rfl⟩
  exact digitChar_isClosed (nibbles_lt hd)

-- The control characters and the backslash, with the letters they are written as.
def letters : List (Byte × Byte) :=
  [(0x07, 0x61), (0x08, 0x62), (0x09, 0x74), (0x0a, 0x6e), (0x0b, 0x76), (0x0c, 0x66), (0x0d, 0x72), (0x1b, 0x65), (0x5c, 0x5c)]

def octalFollows (next : Option Chr) : Bool := next.any fun c => lit '0' ≤ c ∧ c ≤ lit '7'

-- The encodings `es` that `escape_string` writes for the encoding `l` in front of `next`.
inductive Form (esc : List Chr) (next : Option Chr) : List Byte → List (List Byte) → Prop
  | raw {l : List Byte} (hl : IsClosed l) (hback : charOf l ≠ lit '\\') (hret : charOf l ≠ lit '\r')
      (hb : ¬beyond (charOf l) = true) : Form esc next l [l]
  | quoted {b : Byte} (hb : b.toNat < 0x80) (hesc : charOf [b] ∈ esc) : Form esc next [b] [[0x5c#8], [b]]
  | letter {b x : Byte} (h : (b, x) ∈ letters) : Form esc next [b] [[0x5c#8], [x]]
  | nul (h : ¬octalFollows next = true) : Form esc next [0#8] [[0x5c#8], [0x30#8]]
  | codepoint {l : List Byte} {x : Byte} {m n : ℕ} {v : BitVec 32} (hx : x = 0x75#8 ∧ m = 4 ∨ x = 0x55#8 ∧ m = 8)
      (hl : IsEncoding l) (hcode : HasCodepoint (charOf l) v) (hbeyond : beyond (charOf l) = true ↔ 0x10ffff < v.toNat)
      (hbig : m = 4 → v.toNat ≤ 0xffff) (hn : n ≤ m) (hpos : 0 < n) (hv : v.toNat < 16 ^ n)
      (hfull : n = m ∨ ¬needFullHex next = true) : Form esc next l (hexEscape x n v.toNat)
  -- control characters, and the bytes of a malformed or overlong character
  | bytes {l : List Byte} (hl : IsEncoding l) (hb : ¬beyond (charOf l) = true) :
      Form esc next l (l.flatMap fun b => hexEscape 0x78#8 2 b.toNat)

variable {esc : List Chr} {next : Option Chr} {l : List Byte} {es : List (List Byte)}

theorem letters_lt {b x : Byte} (h : (b, x) ∈ letters) : b.toNat < 0x80 ∧ x.toNat < 0x80 := by
  have hall : letters.all (fun p => decide (p.1.toNat < 0x80 ∧ p.2.toNat < 0x80)) = true := by decide
  exact of_decide_eq_true (List.all_eq_true.1 hall _ h)

theorem Form.hex (b : Byte) (hb : b.toNat < 0x80) : Form esc next [b] (hexEscape 0x78#8 2 b.toNat) := by
  have h : Form esc next [b] ([b].flatMap fun b => hexEscape 0x78#8 2 b.toNat) :=
    .bytes (isClosed_ascii hb).toIsEncoding (not_beyond_ascii hb)
  simpa using h

theorem Form.closed (h : Form esc next l es) : ∀ e ∈ es, IsClosed e := by
  cases h with
  | raw hl => simpa using hl
  | quoted hb =>
      simp only [List.mem_cons, forall_eq_or_imp]
      exact ⟨isClosed_ascii (by decide), isClosed_ascii hb, by simp⟩
  | letter h =>
      simp only [List.mem_cons, forall_eq_or_imp]
      exact ⟨isClosed_ascii (by decide), isClosed_ascii (letters_lt h).2, by simp⟩
  | nul =>
      simp only [List.mem_cons, forall_eq_or_imp]
      exact ⟨isClosed_ascii (by decide), isClosed_ascii (by decide), by simp⟩
  | codepoint hx =>
      refine hexEscape_closed ?_ _ _
      rcases hx with ⟨rfl, -⟩ | ⟨rfl, -⟩ <;> decide
  | bytes =>
      intro e he
      obtain ⟨b, -, he⟩ := List.mem_flatMap.1 he
      exact hexEscape_closed (by decide) _ _ e he

-- A form starts with a backslash, unless the character stands for itself.
theorem Form.head (h : Form esc next l es) : es = [l] ∨ ∃ es', es = [0x5c#8] :: es' := by
  cases h with
  | raw => exact .inl rfl
  | quoted => exact .inr ⟨_, rfl⟩
  | letter => exact .inr ⟨_, rfl⟩
  | nul => exact .inr ⟨_, rfl⟩
  | codepoint => exact .inr ⟨_, rfl⟩
  | bytes hl =>
      obtain ⟨b, l', rfl⟩ := List.exists_cons_of_length_pos hl.pos
      exact .inr ⟨_, rfl⟩

end Form

section Writes

theorem text_x_append {w : ℕ} (hw : w = 8 ∨ w = 32) (x : BitVec w) (hx : x.toNat < 256) :
    text "\\x" ++ hex x 2 = (hexEscape 0x78#8 2 x.toNat).flatten := by
  obtain ⟨n, hn, hn', heq, -⟩ := hex_eq hw x 2 2 le_rfl (by omega)
  obtain rfl : n = 2 := by omega
  have htext : text "\\x" = [0x5c#8, 0x78#8] := by decide
  rw [heq, htext]
  simp [hexEscape, List.flatMap_def]

variable (cat : BitVec 32 → ℕ) {esc : List Chr} (ascii fullhex : Bool) {b : Byte} {l : List Byte} {next : Option Chr}

-- The letters for the control characters from `'\a'` to `'\r'`.
theorem escapeChar_control (hesc : charOf [b] ∉ esc) (hb : 7 ≤ b.toNat ∧ b.toNat ≤ 13) :
    ∃ es, escapeChar cat esc [] ascii fullhex (charOf [b]) next = .ok es.flatten ∧ Form esc next [b] es := by
  have hcases : ∀ b : Byte, 7 ≤ b.toNat ∧ b.toNat ≤ 13 → b = 7#8 ∨ b = 8#8 ∨ b = 9#8 ∨ b = 10#8 ∨ b = 11#8 ∨ b = 12#8 ∨ b = 13#8 := by
    decide
  rcases hcases b hb with rfl | rfl | rfl | rfl | rfl | rfl | rfl
  · exact ⟨[[0x5c#8], [0x61#8]], by rw [escapeChar, if_neg hesc]; rfl, .letter (by decide)⟩
  · exact ⟨[[0x5c#8], [0x62#8]], by rw [escapeChar, if_neg hesc]; rfl, .letter (by decide)⟩
  · exact ⟨[[0x5c#8], [0x74#8]], by rw [escapeChar, if_neg hesc]; rfl, .letter (by decide)⟩
  · exact ⟨[[0x5c#8], [0x6e#8]], by rw [escapeChar, if_neg hesc]; rfl, .letter (by decide)⟩
  · exact ⟨[[0x5c#8], [0x76#8]], by rw [escapeChar, if_neg hesc]; rfl, .letter (by decide)⟩
  · exact ⟨[[0x5c#8], [0x66#8]], by rw [escapeChar, if_neg hesc]; rfl, .letter (by decide)⟩
  · exact ⟨[[0x5c#8], [0x72#8]], by rw [escapeChar, if_neg hesc]; rfl, .letter (by decide)⟩

-- A null byte, as three digits if an octal digit follows.
theorem escapeNul_spec (esc : List Chr) (next : Option Chr) : ∃ es, escapeNul next = es.flatten ∧ Form esc next [0#8] es := by
  by_cases hdigit : octalFollows next = true
  · refine ⟨hexEscape 0x78#8 2 0, ?_, Form.hex 0#8 (by decide)⟩
    unfold octalFollows at hdigit
    rw [escapeNul, if_pos hdigit]
    decide
  · refine ⟨[[0x5c#8], [0x30#8]], ?_, .nul hdigit⟩
    unfold octalFollows at hdigit
    rw [escapeNul, if_neg hdigit]
    decide

theorem escapeChar_ascii (hb : b.toNat < 0x80) :
    ∃ es, escapeChar cat esc [] ascii fullhex (charOf [b]) next = .ok es.flatten ∧ Form esc next [b] es := by
  have hw := (isClosed_ascii hb).writeChar_eq
  by_cases hquoted : charOf [b] ∈ esc
  · refine ⟨[[0x5c#8], [b]], ?_, .quoted hb hquoted⟩
    rw [escapeChar, if_pos hquoted, hw]
    rfl
  by_cases hnul : b = 0#8
  · subst hnul
    obtain ⟨es, heq, hes⟩ := escapeNul_spec esc next
    exact ⟨es, by rw [← heq, escapeChar, if_neg hquoted]; rfl, hes⟩
  by_cases hesc : b = 0x1b#8
  · subst hesc
    exact ⟨[[0x5c#8], [0x65#8]], by rw [escapeChar, if_neg hquoted]; rfl, .letter (by decide)⟩
  by_cases hback : b = 0x5c#8
  · subst hback
    exact ⟨[[0x5c#8], [0x5c#8]], by rw [escapeChar, if_neg hquoted]; rfl, .letter (by decide)⟩
  by_cases hcontrol : 7 ≤ b.toNat ∧ b.toNat ≤ 13
  · exact escapeChar_control cat ascii fullhex hquoted hcontrol
  have hne : ∀ b' : Byte, b ≠ b' → charOf [b] ≠ charOf [b'] := fun b' hb' heq => hb' (charOf_singleton_inj heq)
  have hisascii : isascii (charOf [b]) = true := (isClosed_ascii hb).isascii_iff.2 hb
  have hrange : ¬(lit '\x07' ≤ charOf [b] ∧ charOf [b] ≤ lit '\x0d') := by
    have hlo : (lit '\x07').toNat = 7 * 2 ^ 24 := by decide
    have hhi : (lit '\x0d').toNat = 13 * 2 ^ 24 := by decide
    rw [BitVec.le_def, BitVec.le_def, toNat_charOf_singleton, hlo, hhi]
    omega
  have hnulchar : charOf [b] ≠ lit '\x00' := hne 0#8 hnul
  have hescchar : charOf [b] ≠ lit '\x1b' := hne 0x1b#8 hesc
  have hbackchar : charOf [b] ≠ lit '\\' := hne 0x5c#8 hback
  have hretchar : charOf [b] ≠ lit '\r' := by
    refine hne 0x0d#8 ?_
    rintro rfl
    exact hcontrol (by decide)
  have hstep : escapeChar cat esc [] ascii fullhex (charOf [b]) next =
      if isprint cat (charOf [b]) then .ok (writeChar (charOf [b])) else .ok (text "\\x" ++ hex (charOf [b] >>> 24) 2) := by
    rw [escapeChar, if_neg hquoted, if_neg (by simp), if_pos hisascii, if_neg hnulchar, if_neg hescchar,
      if_neg hbackchar, if_neg hrange, codepoint_ascii hb]
    rfl
  rw [hstep]
  by_cases hprint : isprint cat (charOf [b]) = true
  · exact ⟨[[b]], by rw [if_pos hprint, hw]; rfl, .raw (isClosed_ascii hb) hbackchar hretchar (not_beyond_ascii hb)⟩
  · refine ⟨hexEscape 0x78#8 2 b.toNat, ?_, Form.hex b hb⟩
    have hb256 : (charOf [b] >>> 24).toNat < 256 := by
      rw [toNat_shiftRight_singleton]
      omega
    rw [if_neg hprint, text_x_append (.inr rfl) _ hb256, toNat_shiftRight_singleton]

-- The loop over the bytes follows the one that writes them.
theorem escapeBytes_eq (k : ℕ) (u : BitVec 32) :
    escapeBytes k u = ((writeLoop k u).flatMap fun b => hexEscape 0x78#8 2 b.toNat).flatten := by
  induction k generalizing u with
  | zero => rfl
  | succ k ih =>
      rw [escapeBytes, writeLoop, text_x_append (.inl rfl) _ (u.truncate 8 : Byte).isLt, List.flatMap_cons, List.flatten_append]
      by_cases hzero : u >>> 8 = 0
      · simp [hzero]
      · rw [if_neg hzero, if_neg hzero, ih]

theorem text_codepoint_append {t : String} {x : Byte} (ht : text t = [0x5c#8, x]) (v : BitVec 32) (pad m : ℕ) (hpad : pad ≤ m)
    (hv : v.toNat < 16 ^ m) : ∃ n, pad ≤ n ∧ n ≤ m ∧ text t ++ hex v pad = (hexEscape x n v.toNat).flatten ∧ v.toNat < 16 ^ n := by
  obtain ⟨n, hn, hn', heq, hlt⟩ := hex_eq (.inr rfl) v pad m hpad hv
  refine ⟨n, hn, hn', ?_, hlt⟩
  rw [heq, ht]
  simp [hexEscape, List.flatMap_def]

theorem le_of_isprint {c : Chr} (h : isprint cat c = true) : ¬0x10ffff < (unsafeCodepoint c).toNat := by
  intro hbig
  have hcode : ¬unsafeCodepoint c ≤ 0x10ffff := by
    rw [BitVec.le_def]
    simp only [BitVec.ofNat_eq_ofNat, BitVec.toNat_ofNat]
    omega
  have hcat : categoryCode cat c = 30 ∨ categoryCode cat c = 31 := by
    rw [categoryCode, if_neg hcode]
    split
    · exact .inl rfl
    · exact .inr rfl
  simp only [isprint, decide_eq_true_eq] at h
  omega

theorem escapeChar_wellFormed (h : IsEncoding l) (hb : 0x80 ≤ (byteAt l 0).toNat) (hover : ¬isoverlong (charOf l) = true)
    (hmal : ¬ismalformed (charOf l) = true) (hesc : charOf l ∉ esc) (hascii : ¬isascii (charOf l) = true) :
    ∃ es, escapeChar cat esc [] ascii fullhex (charOf l) next = .ok es.flatten ∧ Form esc next l es := by
  have hclosed : IsClosed l := ⟨h, (h.complete hb hmal).2⟩
  have hcode := h.hasCodepoint hb hover hmal
  have hw := h.writeChar_eq
  have hbeyond : beyond (charOf l) = true ↔ 0x10ffff < (unsafeCodepoint (charOf l)).toNat := by
    simp [beyond, hover, hmal, BitVec.lt_def]
  have hbounds := toNat_charOf_bounds l
  have hdel : ¬charOf l ≤ lit '\x7f' := by
    have hlit : (lit '\x7f').toNat = 0x7f * 2 ^ 24 := by decide
    rw [BitVec.le_def, hlit]
    omega
  have hne : ∀ c, c ≤ lit '\x7f' → charOf l ≠ c := by
    rintro c hc rfl
    exact hdel hc
  rw [escapeChar, if_neg hesc, if_neg (by simp), if_neg hascii, if_pos ⟨hover, hmal⟩]
  by_cases hprint : ¬ascii = true ∧ isprint cat (charOf l) = true
  · rw [if_pos hprint, hw]
    refine ⟨[l], by simp, .raw hclosed (hne _ (by decide)) (hne _ (by decide)) ?_⟩
    exact mt hbeyond.1 (le_of_isprint cat hprint.2)
  rw [if_neg hprint, if_neg hdel, hcode.codepoint_eq]
  simp only [ok_bind, pure_eq_ok]
  have hrange := hcode.range
  by_cases hsmall : charOf l ≤ 0xefbfbf00
  · have hv := hcode.le_ffff.1 hsmall
    obtain ⟨n, hn, hn', heq, hlt⟩ := text_codepoint_append (t := "\\u") (x := 0x75#8) (by decide) (unsafeCodepoint (charOf l))
      (if fullhex ∨ needFullHex next then 4 else 2) 4 (by split <;> decide) (by omega)
    refine ⟨hexEscape 0x75#8 n (unsafeCodepoint (charOf l)).toNat, by rw [if_pos hsmall, heq], ?_⟩
    refine .codepoint (.inl ⟨rfl, rfl⟩) h hcode hbeyond (fun _ => hv) hn' ?_ hlt ?_
    · split at hn <;> omega
    · split at hn
      · exact .inl (by omega)
      · rename_i hnot
        exact .inr fun hfull => hnot (.inr hfull)
  · obtain ⟨n, hn, hn', heq, hlt⟩ := text_codepoint_append (t := "\\U") (x := 0x55#8) (by decide) (unsafeCodepoint (charOf l))
      (if fullhex ∨ needFullHex next then 8 else 4) 8 (by split <;> decide) (by omega)
    refine ⟨hexEscape 0x55#8 n (unsafeCodepoint (charOf l)).toNat, by rw [if_neg hsmall, heq], ?_⟩
    refine .codepoint (.inr ⟨rfl, rfl⟩) h hcode hbeyond (fun hm => absurd hm (by decide)) hn' ?_ hlt ?_
    · split at hn <;> omega
    · split at hn
      · exact .inl (by omega)
      · rename_i hnot
        exact .inr fun hfull => hnot (.inr hfull)

-- With ASCII characters to be escaped, every character has one of the forms.
theorem escapeChar_form (hesc : ∀ c ∈ esc, isascii c = true) (h : IsEncoding l) (next : Option Chr) :
    ∃ es, escapeChar cat esc [] ascii fullhex (charOf l) next = .ok es.flatten ∧ Form esc next l es := by
  by_cases hb : (byteAt l 0).toNat < 0x80
  · rw [h.eq_singleton hb]
    exact escapeChar_ascii cat ascii fullhex hb
  have hascii : ¬isascii (charOf l) = true := mt h.isascii_iff.1 hb
  have hnot : charOf l ∉ esc := fun hmem => hascii (hesc _ hmem)
  by_cases hwell : ¬isoverlong (charOf l) = true ∧ ¬ismalformed (charOf l) = true
  · exact escapeChar_wellFormed cat ascii fullhex h (by omega) hwell.1 hwell.2 hnot hascii
  · have hnb : ¬beyond (charOf l) = true := by
      simp only [beyond, decide_eq_true_eq]
      exact fun hbeyond => hwell ⟨hbeyond.1, hbeyond.2.1⟩
    refine ⟨_, ?_, .bytes h hnb⟩
    rw [escapeChar, if_neg hnot, if_neg (by simp), if_neg hascii, if_neg hwell, escapeBytes_eq]
    have hwrite : writeLoop 4 (bswap (charOf l)) = l := h.writeChar_eq
    rw [hwrite]
    rfl

-- What is written for the characters that follow.
inductive Forms (esc : List Chr) : List (List Byte) → List (List Byte) → Prop
  | nil : Forms esc [] []
  | cons {l : List Byte} {ls es es' : List (List Byte)} (h : Form esc (ls.map charOf).head? l es) (hs : Forms esc ls es') :
      Forms esc (l :: ls) (es ++ es')

theorem escapeLoop_forms (hesc : ∀ c ∈ esc, isascii c = true) (ls : List (List Byte)) (h : ∀ l ∈ ls, IsEncoding l) :
    ∃ es, escapeLoop cat esc [] ascii fullhex (ls.map charOf) = .ok es.flatten ∧ Forms esc ls es := by
  induction ls with
  | nil => exact ⟨[], rfl, .nil⟩
  | cons l ls ih =>
      obtain ⟨es', hloop, hforms⟩ := ih fun l' hl' => h l' (List.mem_cons_of_mem _ hl')
      obtain ⟨es, hchar, hform⟩ := escapeChar_form cat ascii fullhex hesc (h l List.mem_cons_self) (ls.map charOf).head?
      refine ⟨es ++ es', ?_, .cons hform hforms⟩
      rw [List.map_cons, escapeLoop, hchar, ok_bind, hloop, ok_bind, List.flatten_append]
      rfl

theorem Forms.closed {ls es : List (List Byte)} (h : Forms esc ls es) : ∀ e ∈ es, IsClosed e := by
  induction h with
  | nil => simp
  | cons h _ ih =>
      intro e he
      rcases List.mem_append.1 he with he | he
      · exact h.closed e he
      · exact ih e he

end Writes

end Joolia.Strings
