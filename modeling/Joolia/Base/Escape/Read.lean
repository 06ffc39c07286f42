import Joolia.Base.Escape.Forms

namespace Joolia.Strings

open Fallible Packing

-- `unescape_string` on the characters `a` gives `r`.
def Unescapes (a : List Chr) (r : Except Error (List Byte)) : Prop :=
  ∀ fuel, a.length ≤ fuel → unescapeLoop [] fuel a = r

-- The characters that `escape_string` leaves in front of the next one: a backslash, or
-- that one itself.
def Follows (next : Option Chr) (a : List Chr) : Prop := ∀ d ∈ a.head?, d = lit '\\' ∨ next = some d

def refused : Error := .argumentError "invalid unicode (\\U) escape sequence"

-- Reading an escaped character in front of a text that reads as `r`.
def readBack (l : List Byte) (r : Except Error (List Byte)) : Except Error (List Byte) :=
  if beyond (charOf l) then .error refused else r.map (l ++ ·)

section Unescapes

variable {a a' : List Chr} {c : Chr} {out : List Byte} {r : Except Error (List Byte)}

theorem unescapes_nil : Unescapes [] (.ok []) := by
  intro fuel _
  cases fuel <;> rfl

theorem Unescapes.raw (h : Unescapes a r) (hc : c ≠ lit '\\') : Unescapes (c :: a) (r.map (writeChar c ++ ·)) := by
  intro fuel hfuel
  rw [List.length_cons] at hfuel
  obtain ⟨fuel, rfl⟩ := Nat.exists_eq_add_one_of_ne_zero (n := fuel) (by omega)
  have hstep : unescapeLoop [] (fuel + 1) (c :: a) = (unescapeLoop [] fuel a).map (writeChar c ++ ·) := by
    cases a <;> rw [unescapeLoop, if_neg (by simp [hc])] <;> rfl
  rw [hstep, h fuel (by omega)]

theorem Unescapes.escaped (h : Unescapes a' r) (hafter : unescapeAfter [] c a = .ok (out, a')) (hlen : a'.length ≤ a.length) :
    Unescapes (lit '\\' :: c :: a) (r.map (out ++ ·)) := by
  intro fuel hfuel
  simp only [List.length_cons] at hfuel
  obtain ⟨fuel, rfl⟩ := Nat.exists_eq_add_one_of_ne_zero (n := fuel) (by omega)
  rw [unescapeLoop, if_pos (by simp)]
  simp only [hafter, ok_bind]
  rw [h fuel (by omega)]
  cases r <;> rfl

theorem unescapes_error {e : Error} (hafter : unescapeAfter [] c a = .error e) : Unescapes (lit '\\' :: c :: a) (.error e) := by
  intro fuel hfuel
  simp only [List.length_cons] at hfuel
  obtain ⟨fuel, rfl⟩ := Nat.exists_eq_add_one_of_ne_zero (n := fuel) (by omega)
  rw [unescapeLoop, if_pos (by simp)]
  simp only [hafter, error_bind]

end Unescapes

section Forms

variable {l : List Byte} {next : Option Chr} {a : List Chr} {r : Except Error (List Byte)}

theorem readBack_of_not_beyond (h : ¬beyond (charOf l) = true) : readBack l r = r.map (l ++ ·) := if_neg h

theorem map_hexEscape (x : Byte) (n v : ℕ) (a : List Chr) :
    (hexEscape x n v).map charOf ++ a = lit '\\' :: charOf [x] :: ((nibbles n v).map (fun d => charOf (digitChar d)) ++ a) := by
  have hback : charOf [0x5c#8] = lit '\\' := by decide
  simp [hexEscape, hback]

theorem unescapeAfter_x {v : ℕ} (hv : v < 256) (a : List Chr) :
    unescapeAfter [] (charOf [0x78#8]) ((nibbles 2 v).map (fun d => charOf (digitChar d)) ++ a) = .ok ([BitVec.ofNat 8 v], a) := by
  have hscan := scanHex_hex (m := 2) (n := 2) (x := v) (a := a) le_rfl (by omega) (.inl rfl)
  have hchar : charOf [0x78#8] = lit 'x' := by decide
  rw [hchar, unescapeAfter, if_neg (by simp), if_pos (.inl rfl)]
  simp only [if_pos, hscan, ok_bind]
  rw [if_neg (by omega), writeByte, if_pos (by omega), BitVec.ofInt_natCast]
  rfl

-- The two letters for code points, with four and with eight digits.
theorem unescapeAfter_codepoint {x : Byte} {m : ℕ} (hx : x = 0x75#8 ∧ m = 4 ∨ x = 0x55#8 ∧ m = 8) {n v : ℕ}
    (hn : n ≤ m) (hpos : 0 < n) (hv : v < 16 ^ n) (hstop : n = m ∨ ∀ c ∈ a.head?, ¬isxdigit c = true) :
    unescapeAfter [] (charOf [x]) ((nibbles n v).map (fun d => charOf (digitChar d)) ++ a) =
      if 0x10ffff < v then .error (.argumentError (if m = 4 then "invalid unicode (\\u) escape sequence" else
        "invalid unicode (\\U) escape sequence"))
      else (charOfCodepoint (BitVec.ofNat 32 v)).map fun c => (writeChar c, a) := by
  have hscan := scanHex_hex (a := a) hn hv hstop
  have hm : (if charOf [x] = lit 'x' then 2 else if charOf [x] = lit 'u' then 4 else 8) = m := by
    rcases hx with ⟨rfl, rfl⟩ | ⟨rfl, rfl⟩ <;> decide
  have hletter : charOf [x] = lit 'x' ∨ charOf [x] = lit 'u' ∨ charOf [x] = lit 'U' := by
    rcases hx with ⟨rfl, rfl⟩ | ⟨rfl, rfl⟩ <;> decide
  have hm2 : ¬m = 2 := by omega
  rw [unescapeAfter, if_neg (by simp), if_pos hletter]
  simp only [hm, hscan, ok_bind, if_neg hm2, BitVec.ofInt_natCast]
  by_cases hbig : 0x10ffff < v
  · rw [if_pos (.inr (by omega)), if_pos hbig]
    rfl
  · rw [if_neg (by omega), if_neg hbig]
    cases charOfCodepoint (BitVec.ofNat 32 v) <;> rfl

-- The bytes of a malformed or overlong character, one by one.
theorem reads_bytes (ha : Unescapes a r) (bs : List Byte) :
    Unescapes ((bs.flatMap fun b => hexEscape 0x78#8 2 b.toNat).map charOf ++ a) (r.map (bs ++ ·)) := by
  induction bs with
  | nil => cases r <;> exact ha
  | cons b bs ih =>
      rw [List.flatMap_cons, List.map_append, List.append_assoc, map_hexEscape]
      have hafter := unescapeAfter_x b.isLt ((bs.flatMap fun b => hexEscape 0x78#8 2 b.toNat).map charOf ++ a)
      rw [BitVec.ofNat_toNat, BitVec.setWidth_eq] at hafter
      have hread := ih.escaped hafter (by simp)
      cases r <;> exact hread

theorem unescapeAfter_nul (h : ¬octalFollows next = true) (hfollows : Follows next a) :
    unescapeAfter [] (lit '0') a = .ok ([0#8], a) := by
  have hscan : scanOctal 1 0 a = .ok (0, a) := by
    cases a with
    | nil => rfl
    | cons c a =>
        have hc : ¬(lit '0' ≤ c ∧ c ≤ lit '7') := by
          rcases hfollows c (by simp) with rfl | rfl
          · decide
          · simpa [octalFollows] using h
        rw [scanOctal, if_neg (by omega), if_neg hc]
        rfl
  have hdiff : charDiff (lit '0') (lit '0') = .ok 0 := by decide
  rw [unescapeAfter, if_neg (by simp), if_neg (by decide), if_pos (by decide), hdiff]
  simp only [ok_bind, hscan]
  rfl

theorem unescapeAfter_letter {b x : Byte} (h : (b, x) ∈ letters) (a : List Chr) :
    unescapeAfter [] (charOf [x]) a = .ok ([b], a) := by
  simp only [letters, List.mem_cons, Prod.mk.injEq, List.not_mem_nil, or_false] at h
  rcases h with ⟨rfl, rfl⟩ | ⟨rfl, rfl⟩ | ⟨rfl, rfl⟩ | ⟨rfl, rfl⟩ | ⟨rfl, rfl⟩ | ⟨rfl, rfl⟩ | ⟨rfl, rfl⟩ | ⟨rfl, rfl⟩ |
    ⟨rfl, rfl⟩ <;> rfl

-- Each form reads as the character it was written for.
theorem Form.unescapes {es : List (List Byte)} (h : Form [lit '"'] next l es) (hfollows : Follows next a) (ha : Unescapes a r) :
    Unescapes (es.map charOf ++ a) (readBack l r) := by
  cases h with
  | raw hl hback hret hb =>
      have hraw := ha.raw hback
      rw [hl.writeChar_eq] at hraw
      rwa [readBack_of_not_beyond hb]
  | @quoted b hb hesc =>
      obtain rfl : b = 0x22#8 := charOf_singleton_inj (List.mem_singleton.1 hesc)
      rw [readBack_of_not_beyond (not_beyond_ascii hb)]
      have hafter : unescapeAfter [] (charOf [0x22#8]) a = .ok ([0x22#8], a) := by rfl
      exact ha.escaped hafter le_rfl
  | letter hletter =>
      rw [readBack_of_not_beyond (not_beyond_ascii (letters_lt hletter).1)]
      exact ha.escaped (unescapeAfter_letter hletter a) le_rfl
  | nul hoctal =>
      rw [readBack_of_not_beyond (not_beyond_ascii (by decide))]
      exact ha.escaped (unescapeAfter_nul hoctal hfollows) le_rfl
  | @codepoint _ x m n v hx hl hcode hbeyond hbig hn hpos hv hfull =>
      have hstop : n = m ∨ ∀ c ∈ a.head?, ¬isxdigit c = true := by
        refine hfull.imp_right fun hnot c hc => ?_
        rcases hfollows c hc with rfl | rfl
        · decide
        · simpa [needFullHex] using hnot
      have hafter := unescapeAfter_codepoint hx hn hpos hv hstop
      rw [BitVec.ofNat_toNat, BitVec.setWidth_eq, hcode.char_eq] at hafter
      rw [map_hexEscape]
      by_cases hb : 0x10ffff < v.toNat
      · have hm : ¬m = 4 := fun hm => by
          have := hbig hm
          omega
        rw [if_pos hb, if_neg hm] at hafter
        rw [readBack, if_pos (hbeyond.2 hb)]
        exact unescapes_error hafter
      · rw [if_neg hb] at hafter
        rw [readBack_of_not_beyond (mt hbeyond.1 hb)]
        have hread := ha.escaped hafter (by simp)
        rwa [hl.writeChar_eq] at hread
  | bytes hl hb =>
      rw [readBack_of_not_beyond hb]
      exact reads_bytes ha l

end Forms

end Joolia.Strings

namespace Joolia.Strings

open Fallible Packing

section Escape

variable (cat : BitVec 32 → ℕ) (ascii fullhex : Bool)

-- What `unescape_string` makes of the escaped characters.
def readAll (ls : List (List Byte)) : Except Error (List Byte) :=
  if ls.any fun l => beyond (charOf l) then .error refused else .ok ls.flatten

theorem readBack_readAll (l : List Byte) (ls : List (List Byte)) : readBack l (readAll ls) = readAll (l :: ls) := by
  by_cases hl : beyond (charOf l) = true
  · simp [readBack, readAll, hl]
  · by_cases hls : (ls.any fun l => beyond (charOf l)) = true
    · simp [readBack, readAll, hl, hls, Except.map]
    · simp [readBack, readAll, hl, hls, Except.map]

-- A form is followed by a backslash, or by the character that `escape_string` has peeked at.
theorem Forms.follows {esc : List Chr} {ls es : List (List Byte)} (h : Forms esc ls es) :
    Follows (ls.map charOf).head? (es.map charOf) := by
  cases h with
  | nil => simp [Follows]
  | cons h _ =>
      intro d hd
      rcases h.head with rfl | ⟨es', rfl⟩
      · exact .inr (by simpa using hd)
      · have hback : charOf [0x5c#8] = lit '\\' := by decide
        exact .inl (by simpa [hback, eq_comm] using hd)

theorem Forms.unescapes {ls es : List (List Byte)} (h : Forms [lit '"'] ls es) : Unescapes (es.map charOf) (readAll ls) := by
  induction h with
  | nil => exact unescapes_nil
  | cons h hs ih =>
      rw [List.map_append, ← readBack_readAll]
      exact h.unescapes hs.follows ih

theorem unescapeString_escapeString (s : Str) : ∃ bytes, escapeString cat [lit '"'] [] ascii fullhex s = .ok bytes ∧
    ∀ e : Str, e.data = bytes → (unescapeString e [] = .ok s.data ↔ ∃ cs, chars s = .ok cs ∧ ∀ c ∈ cs, ¬beyond c = true) := by
  obtain ⟨ls, hchars, hls, hdata⟩ := chars_spec s
  have hesc : ∀ c ∈ [lit '"'], isascii c = true := List.forall_mem_singleton.2 (by decide)
  obtain ⟨es, hloop, hforms⟩ := escapeLoop_forms cat ascii fullhex hesc ls hls
  refine ⟨es.flatten, by rw [escapeString, hchars, ok_bind, hloop], fun e he => ?_⟩
  have hread : unescapeString e [] = readAll ls := by
    rw [unescapeString, chars_closed hforms.closed he, ok_bind]
    exact hforms.unescapes _ le_rfl
  rw [hread, hchars, readAll, hdata]
  constructor
  · intro heq
    refine ⟨_, rfl, fun c hc => ?_⟩
    obtain ⟨l, hl, rfl⟩ := List.mem_map.1 hc
    intro hbeyond
    rw [if_pos (List.any_eq_true.2 ⟨l, hl, hbeyond⟩)] at heq
    cases heq
  · rintro ⟨cs, hcs, hall⟩
    obtain rfl := Except.ok.inj hcs
    rw [if_neg]
    intro hany
    obtain ⟨l, hl, hbeyond⟩ := List.any_eq_true.1 hany
    exact hall _ (List.mem_map_of_mem hl) hbeyond

end Escape

-- The encoding of the number after the last code point.
def beyondLast : Str := ⟨[0xf4, 0x90, 0x80, 0x80], by decide⟩

theorem escape_beyond_refused : ∃ e : Str, escapeString (fun _ => 0) [lit '"'] [] false false beyondLast = .ok e.data ∧
    unescapeString e [] = .error (.argumentError "invalid unicode (\\U) escape sequence") :=
  ⟨⟨text "\\U110000", by decide⟩, by set_option maxRecDepth 20000 in decide⟩

end Joolia.Strings
