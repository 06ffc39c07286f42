import Joolia.Base.Escape.Forms
import Joolia.JuliaSyntax.LiteralParsing

namespace Joolia.JuliaSyntax

open Fallible Strings

-- The bytes `a` are unescaped to `r`, without a diagnostic.
def Reads (endind : ℕ) (a r : List Byte) : Prop := ∀ fuel, a.length ≤ fuel → unescapeJuliaLoop endind fuel a = .ok (.write r)

-- The byte in front of which the character `next` was peeked at: a backslash, a byte that is
-- not ASCII, or that character itself.
def Precedes (next : Option Chr) (a : List Byte) : Prop :=
  ∀ b ∈ a.head?, b = 0x5c#8 ∨ 0x80 ≤ b.toNat ∨ next = some (charOf [b])

section Reads

variable {endind : ℕ} {a a' r out : List Byte} {c : Byte}

theorem reads_nil : Reads endind [] [] := by
  intro fuel _
  cases fuel <;> rfl

theorem Unescaped.append_write (out r : List Byte) : (Unescaped.write out).append (.write r) = .write (out ++ r) := rfl

theorem Reads.raw (h : Reads endind a r) (hback : c ≠ 0x5c#8) (hret : c ≠ 0x0d#8) : Reads endind (c :: a) (c :: r) := by
  intro fuel hfuel
  rw [List.length_cons] at hfuel
  obtain ⟨fuel, rfl⟩ := Nat.exists_eq_add_one_of_ne_zero (n := fuel) (by omega)
  have hline : newline c a = (c, a) := if_neg hret
  rw [unescapeJuliaLoop, if_pos (show c ≠ u8 '\\' from hback), hline]
  dsimp only
  rw [h fuel (by omega), ok_bind, Unescaped.append_write]
  rfl

theorem Reads.rawAll (h : Reads endind a r) {l : List Byte} (hl : ∀ b ∈ l, b ≠ 0x5c#8 ∧ b ≠ 0x0d#8) :
    Reads endind (l ++ a) (l ++ r) := by
  induction l with
  | nil => exact h
  | cons b l ih =>
      obtain ⟨hback, hret⟩ := hl b List.mem_cons_self
      exact (ih fun b' hb' => hl b' (List.mem_cons_of_mem _ hb')).raw hback hret

theorem Reads.escaped (h : Reads endind a' r)
    (hafter : ∀ escstart, unescapeSequence endind escstart c a = .ok (.write out, a')) (hlen : a'.length ≤ a.length) :
    Reads endind (0x5c#8 :: c :: a) (out ++ r) := by
  intro fuel hfuel
  simp only [List.length_cons] at hfuel
  obtain ⟨fuel, rfl⟩ := Nat.exists_eq_add_one_of_ne_zero (n := fuel) (by omega)
  have hback : ¬0x5c#8 ≠ u8 '\\' := not_not.2 (by decide)
  rw [unescapeJuliaLoop, if_neg hback]
  dsimp only
  rw [hafter, ok_bind]
  dsimp only
  rw [h fuel (by omega), ok_bind, Unescaped.append_write]
  rfl

end Reads

section Digits

theorem charOf_singleton_le {b b' : Byte} : charOf [b] ≤ charOf [b'] ↔ b ≤ b' := by
  rw [BitVec.le_def, BitVec.le_def, toNat_charOf_singleton, toNat_charOf_singleton]
  omega

-- The digits among the bytes are those among the characters.
theorem isxdigit_singleton (b : Byte) : isxdigit (charOf [b]) = true ↔
    u8 '0' ≤ b ∧ b ≤ u8 '9' ∨ u8 'a' ≤ b ∧ b ≤ u8 'f' ∨ u8 'A' ≤ b ∧ b ≤ u8 'F' := by
  have hlit : lit '0' = charOf [u8 '0'] ∧ lit '9' = charOf [u8 '9'] ∧ lit 'a' = charOf [u8 'a'] ∧ lit 'f' = charOf [u8 'f'] ∧
      lit 'A' = charOf [u8 'A'] ∧ lit 'F' = charOf [u8 'F'] := by decide
  obtain ⟨h0, h9, ha, hf, hA, hF⟩ := hlit
  simp only [isxdigit, decide_eq_true_eq, h0, h9, ha, hf, hA, hF, charOf_singleton_le]

theorem scanHex_digit {m k : ℕ} (n : ℤ) (a : List Byte) {d : ℕ} (hd : d < 16) (hk : k + 1 ≤ m) :
    scanHex m k n (hexDigit (BitVec.ofNat 8 d) :: a) = scanHex m (k + 1) (n <<< (4 : ℕ) + (d : ℤ)) a := by
  rw [scanHex, if_neg (not_not.2 hk)]
  by_cases hlow : d < 10
  · have hrange : ∀ d < 10, (u8 '0' ≤ hexDigit (BitVec.ofNat 8 d) ∧ hexDigit (BitVec.ofNat 8 d) ≤ u8 '9') ∧
        (hexDigit (BitVec.ofNat 8 d) - u8 '0').toNat = d := by decide
    rw [if_pos (hrange d hlow).1, (hrange d hlow).2]
  · have hrange : ∀ d < 16, ¬d < 10 → ¬(u8 '0' ≤ hexDigit (BitVec.ofNat 8 d) ∧ hexDigit (BitVec.ofNat 8 d) ≤ u8 '9') ∧
        (u8 'a' ≤ hexDigit (BitVec.ofNat 8 d) ∧ hexDigit (BitVec.ofNat 8 d) ≤ u8 'f') ∧
        (hexDigit (BitVec.ofNat 8 d) - u8 'a').toNat + 10 = d := by decide
    obtain ⟨hnot, hletter, hvalue⟩ := hrange d hd hlow
    have hcast : ((hexDigit (BitVec.ofNat 8 d) - u8 'a').toNat : ℤ) + 10 = d := by exact_mod_cast hvalue
    rw [if_neg hnot, if_pos hletter, hcast]

theorem scanHex_digits {m k : ℕ} (n : ℤ) (a : List Byte) {ds : List ℕ} (hds : ∀ d ∈ ds, d < 16) (hk : k + ds.length ≤ m) :
    scanHex m k n ((ds.map fun d => hexDigit (BitVec.ofNat 8 d)) ++ a) =
      scanHex m (k + ds.length) (ds.foldl (fun (v : ℤ) (d : ℕ) => v <<< (4 : ℕ) + (d : ℤ)) n) a := by
  induction ds generalizing k n with
  | nil => rfl
  | cons d ds ih =>
      rw [List.length_cons] at hk
      rw [List.map_cons, List.cons_append, scanHex_digit n _ (hds d List.mem_cons_self) (by omega),
        ih _ (fun d' hd' => hds d' (List.mem_cons_of_mem _ hd')) (by omega), List.foldl_cons, List.length_cons,
        show k + 1 + ds.length = k + (ds.length + 1) by omega]

theorem scanHex_stop {m k : ℕ} (n : ℤ) {a : List Byte} (h : k = m ∨ ∀ b ∈ a.head?, ¬isxdigit (charOf [b]) = true) :
    scanHex m k n a = (k + 1, n, a) := by
  cases a with
  | nil => rfl
  | cons b a =>
      rw [scanHex]
      rcases h with rfl | hnot
      · rw [if_pos (by omega)]
      · have hb := hnot b rfl
        rw [isxdigit_singleton, not_or, not_or] at hb
        rw [if_neg hb.1, if_neg hb.2.1, if_neg hb.2.2, ite_self]

theorem scanHex_hex {m n v : ℕ} {a : List Byte} (hn : n ≤ m) (hv : v < 16 ^ n)
    (h : n = m ∨ ∀ b ∈ a.head?, ¬isxdigit (charOf [b]) = true) :
    scanHex m 0 0 (((nibbles n v).map fun d => hexDigit (BitVec.ofNat 8 d)) ++ a) = (n + 1, (v : ℤ), a) := by
  rw [scanHex_digits 0 a (fun d => nibbles_lt) (by rw [length_nibbles]; omega), length_nibbles, foldl_nibbles n v 0 hv,
    Nat.zero_add, scanHex_stop _ h, zero_mul, zero_add]

end Digits

section Sequences

variable {next : Option Chr} {endind escstart : ℕ} {l a r : List Byte}

theorem flatten_hexEscape (x : Byte) (n v : ℕ) :
    (hexEscape x n v).flatten = 0x5c#8 :: x :: (nibbles n v).map fun d => hexDigit (BitVec.ofNat 8 d) := by
  have hdigits : ((nibbles n v).map digitChar).flatten = (nibbles n v).map fun d => hexDigit (BitVec.ofNat 8 d) := by
    induction nibbles n v with
    | nil => rfl
    | cons d ds ih => rw [List.map_cons, List.flatten_cons, ih]; rfl
  rw [hexEscape, List.flatten_cons, List.flatten_cons, hdigits]
  rfl

theorem unescapeSequence_x {v : ℕ} (hv : v < 256) (a : List Byte) :
    unescapeSequence endind escstart 0x78#8 (((nibbles 2 v).map fun d => hexDigit (BitVec.ofNat 8 d)) ++ a) =
      .ok (.write [BitVec.ofNat 8 v], a) := by
  have hscan := scanHex_hex (m := 2) (n := 2) (v := v) (a := a) le_rfl (by omega) (.inl rfl)
  have hx : 0x78#8 = u8 'x' := by decide
  rw [unescapeSequence, if_pos (.inl hx)]
  simp only [if_pos hx, hscan]
  rw [if_neg (by omega), if_pos trivial, writeByte, if_pos (by omega), BitVec.ofInt_natCast]
  rfl

theorem unescapeSequence_codepoint {x : Byte} {m n v : ℕ} (hx : x = 0x75#8 ∧ m = 4 ∨ x = 0x55#8 ∧ m = 8) (hn : n ≤ m)
    (hpos : 0 < n) (hv : v < 16 ^ n) (hstop : n = m ∨ ∀ b ∈ a.head?, ¬isxdigit (charOf [b]) = true)
    (hmax : ¬0x10ffff < v) {c : Chr} (hc : charOfCodepoint (BitVec.ofNat 32 v) = .ok c) :
    unescapeSequence endind escstart x (((nibbles n v).map fun d => hexDigit (BitVec.ofNat 8 d)) ++ a) =
      .ok (.write (writeChar c), a) := by
  have hscan := scanHex_hex hn hv hstop
  have hm : (if x = u8 'x' then 2 else if x = u8 'u' then 4 else 8) = m := by
    rcases hx with ⟨rfl, rfl⟩ | ⟨rfl, rfl⟩ <;> decide
  have hletter : x = u8 'x' ∨ x = u8 'u' ∨ x = u8 'U' := by
    rcases hx with ⟨rfl, rfl⟩ | ⟨rfl, rfl⟩ <;> decide
  have hm2 : ¬m = 2 := by omega
  rw [unescapeSequence, if_pos hletter]
  simp only [hm, hscan, if_neg hm2, BitVec.ofInt_natCast]
  rw [if_neg (by omega), hc, ok_bind, pure_eq_ok]

theorem unescapeSequence_nul (h : ¬octalFollows next = true) (hprecedes : Precedes next a) :
    unescapeSequence endind escstart 0x30#8 a = .ok (.write [0#8], a) := by
  have hscan : scanOctal 1 0 a = (0, a) := by
    cases a with
    | nil => rfl
    | cons b a =>
        have hb : ¬(u8 '0' ≤ b ∧ b ≤ u8 '7') := by
          rcases hprecedes b rfl with rfl | hbig | rfl
          · decide
          · have h7 : (u8 '7').toNat = 0x37 := by decide
            rw [BitVec.le_def, BitVec.le_def, h7]
            omega
          · have hlit : lit '0' = charOf [u8 '0'] ∧ lit '7' = charOf [u8 '7'] := by decide
            simpa [octalFollows, hlit, charOf_singleton_le] using h
        rw [scanOctal, if_neg (by omega), if_neg hb]
  have hzero : ((0x30#8 - u8 '0').toNat : ℤ) = 0 := by decide
  rw [unescapeSequence, if_neg (by decide), if_pos (by decide), hzero, hscan]
  rfl

theorem unescapeSequence_letter {b x : Byte} (h : (b, x) ∈ letters) (a : List Byte) :
    unescapeSequence endind escstart x a = .ok (.write [b], a) := by
  simp only [letters, List.mem_cons, Prod.mk.injEq, List.not_mem_nil, or_false] at h
  rcases h with ⟨rfl, rfl⟩ | ⟨rfl, rfl⟩ | ⟨rfl, rfl⟩ | ⟨rfl, rfl⟩ | ⟨rfl, rfl⟩ | ⟨rfl, rfl⟩ | ⟨rfl, rfl⟩ | ⟨rfl, rfl⟩ |
    ⟨rfl, rfl⟩ <;> rfl

theorem unescapeSequence_quoted {b : Byte} (h : charOf [b] ∈ [lit '"', lit '$']) (a : List Byte) :
    unescapeSequence endind escstart b a = .ok (.write [b], a) := by
  have hlit : lit '"' = charOf [0x22#8] ∧ lit '$' = charOf [0x24#8] := by decide
  simp only [hlit, List.mem_cons, List.not_mem_nil, or_false] at h
  rcases h with h | h
  · obtain rfl := charOf_singleton_inj h
    rfl
  · obtain rfl := charOf_singleton_inj h
    rfl

end Sequences

section Forms

variable {next : Option Chr} {endind : ℕ} {l a r : List Byte}

theorem reads_bytes (ha : Reads endind a r) (bs : List Byte) :
    Reads endind ((bs.flatMap fun b => hexEscape 0x78#8 2 b.toNat).flatten ++ a) (bs ++ r) := by
  induction bs with
  | nil => exact ha
  | cons b bs ih =>
      rw [List.flatMap_cons, List.flatten_append, List.append_assoc, flatten_hexEscape]
      refine @Reads.escaped _ _ _ _ [b] _ ih (fun escstart => ?_) (by simp)
      exact (unescapeSequence_x b.isLt _).trans (by rw [BitVec.ofNat_toNat, BitVec.setWidth_eq])

-- Each form reads as the bytes of the character it was written for.
theorem form_reads {es : List (List Byte)} (h : Form [lit '"', lit '$'] next l es) (hb : ¬beyond (charOf l) = true)
    (hprecedes : Precedes next a) (ha : Reads endind a r) : Reads endind (es.flatten ++ a) (l ++ r) := by
  cases h with
  | raw hl hback hret =>
      rw [List.flatten_singleton]
      refine ha.rawAll fun b hmem => ?_
      rcases hl.eq_or_high hmem with rfl | hbig
      · exact ⟨fun heq => hback (by rw [heq]; decide), fun heq => hret (by rw [heq]; decide)⟩
      · constructor <;> rintro rfl <;> exact absurd hbig (by decide)
  | quoted _ hesc => exact ha.escaped (fun _ => unescapeSequence_quoted hesc a) le_rfl
  | letter hletter => exact ha.escaped (fun _ => unescapeSequence_letter hletter a) le_rfl
  | nul hoctal => exact ha.escaped (fun _ => unescapeSequence_nul hoctal hprecedes) le_rfl
  | @codepoint _ x m n v hx hl hcode hbeyond hbig hn hpos hv hfull =>
      have hstop : n = m ∨ ∀ b ∈ a.head?, ¬isxdigit (charOf [b]) = true := by
        refine hfull.imp_right fun hnot b hhead => ?_
        rcases hprecedes b hhead with rfl | hbig | rfl
        · decide
        · have hf : (u8 '9').toNat = 0x39 ∧ (u8 'f').toNat = 0x66 ∧ (u8 'F').toNat = 0x46 := by decide
          simp only [isxdigit_singleton, BitVec.le_def, hf]
          omega
        · simpa [needFullHex] using hnot
      have hchar := hcode.char_eq
      rw [← BitVec.setWidth_eq v, ← BitVec.ofNat_toNat] at hchar
      rw [flatten_hexEscape, ← hl.writeChar_eq]
      exact ha.escaped (fun _ => unescapeSequence_codepoint hx hn hpos hv hstop (mt hbeyond.2 hb) hchar) (by simp)
  | bytes => exact reads_bytes ha l

-- Every form starts with a backslash, or it is the character itself.
theorem forms_precedes {esc : List Chr} {ls es : List (List Byte)} (h : Forms esc ls es) (hls : ∀ l ∈ ls, IsEncoding l) :
    Precedes (ls.map charOf).head? es.flatten := by
  cases h with
  | nil => simp [Precedes]
  | @cons l ls es es' h _ =>
      intro b hhead
      rcases h.head with rfl | ⟨es'', rfl⟩
      · have hl := hls l List.mem_cons_self
        obtain ⟨b', l', rfl⟩ := List.exists_cons_of_length_pos hl.pos
        obtain rfl : b' = b := by simpa using hhead
        rcases hl.eq_or_high List.mem_cons_self with heq | hbig
        · exact .inr (.inr (by rw [← heq]; rfl))
        · exact .inr (.inl hbig)
      · exact .inl (by simpa [eq_comm] using hhead)

theorem forms_reads {ls es : List (List Byte)} (h : Forms [lit '"', lit '$'] ls es) (hls : ∀ l ∈ ls, IsEncoding l)
    (hb : ∀ l ∈ ls, ¬beyond (charOf l) = true) : Reads endind es.flatten ls.flatten := by
  induction h with
  | nil => exact reads_nil
  | cons h hs ih =>
      rw [List.flatten_append, List.flatten_cons]
      have hls' := fun l hl => hls l (List.mem_cons_of_mem _ hl)
      exact form_reads h (hb _ List.mem_cons_self) (forms_precedes hs hls')
        (ih hls' fun l hl => hb l (List.mem_cons_of_mem _ hl))

end Forms

end Joolia.JuliaSyntax
