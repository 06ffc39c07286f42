import Joolia.Base.Escape.Forms
import Joolia.JuliaSyntax.LiteralParsing
import Joolia.JuliaSyntax.LiteralParsing.Quoted

namespace Joolia.JuliaSyntax

open Fallible Strings

def backslashes (n : ℕ) : List Byte := List.replicate n 0x5c#8

-- The bytes `a` are unescaped to `r`.
def RawReads (delim : Byte) (a r : List Byte) : Prop := ∀ fuel, a.length ≤ fuel → unescapeRawLoop delim fuel a = r

section RawReads

variable {delim b : Byte} {a r : List Byte} {n : ℕ}

theorem RawReads.raw (h : RawReads delim a r) (hback : b ≠ 0x5c#8) (hret : b ≠ 0x0d#8) : RawReads delim (b :: a) (b :: r) := by
  intro fuel hfuel
  rw [List.length_cons] at hfuel
  obtain ⟨fuel, rfl⟩ := Nat.exists_eq_add_one_of_ne_zero (n := fuel) (by omega)
  have hline : newline b a = (b, a) := if_neg hret
  rw [unescapeRawLoop, if_pos (show b ≠ u8 '\\' from hback), hline]
  dsimp only
  rw [h fuel (by omega)]

theorem RawReads.rawAll (h : RawReads delim a r) {l : List Byte} (hl : ∀ b ∈ l, b ≠ 0x5c#8 ∧ b ≠ 0x0d#8) :
    RawReads delim (l ++ a) (l ++ r) := by
  induction l with
  | nil => exact h
  | cons b l ih =>
      obtain ⟨hback, hret⟩ := hl b List.mem_cons_self
      exact (ih fun b' hb' => hl b' (List.mem_cons_of_mem _ hb')).raw hback hret

-- A run of backslashes and the byte behind it.
theorem unescapeRawLoop_run (delim : Byte) (n fuel : ℕ) {d : Byte} (hd : d ≠ 0x5c#8) (rest : List Byte) :
    unescapeRawLoop delim (fuel + 1) (backslashes (n + 1) ++ d :: rest) =
      backslashes (if d = delim then (n + 1) / 2 else n + 1) ++ d :: unescapeRawLoop delim fuel rest := by
  have hall : ∀ b ∈ backslashes (n + 1), decide (b = u8 '\\') = true := by
    intro b hb
    rw [List.eq_of_mem_replicate hb]
    decide
  have hnot : decide (d = u8 '\\') = false := decide_eq_false hd
  have htake : (backslashes (n + 1) ++ d :: rest).takeWhile (· = u8 '\\') = backslashes (n + 1) := by
    rw [List.takeWhile_append_of_pos hall, List.takeWhile_cons, hnot]
    exact List.append_nil _
  have hdrop : (backslashes (n + 1) ++ d :: rest).dropWhile (· = u8 '\\') = d :: rest := by
    rw [List.dropWhile_append_of_pos hall, List.dropWhile_cons, hnot]
    rfl
  have hcons : backslashes (n + 1) ++ d :: rest = 0x5c#8 :: (backslashes n ++ d :: rest) := rfl
  have hback : ¬0x5c#8 ≠ u8 '\\' := not_not.2 (by decide)
  have hlen : (backslashes (n + 1)).length = n + 1 := List.length_replicate
  rw [hcons, unescapeRawLoop, if_neg hback, ← hcons, htake, hdrop]
  dsimp only
  rw [hlen]
  simp [backslashes, u8]

theorem unescapeRawLoop_end (delim : Byte) (n fuel : ℕ) :
    unescapeRawLoop delim (fuel + 1) (backslashes (n + 1)) = backslashes ((n + 1) / 2) := by
  have hself : decide (0x5c#8 = u8 '\\') = true := by decide
  have htake : (backslashes (n + 1)).takeWhile (· = u8 '\\') = backslashes (n + 1) := by
    rw [backslashes, List.takeWhile_replicate, if_pos hself]
  have hdrop : (backslashes (n + 1)).dropWhile (· = u8 '\\') = [] := by
    rw [backslashes, List.dropWhile_replicate, if_pos hself]
  have hcons : backslashes (n + 1) = 0x5c#8 :: backslashes n := rfl
  have hback : ¬0x5c#8 ≠ u8 '\\' := not_not.2 (by decide)
  have hlen : (backslashes (n + 1)).length = n + 1 := List.length_replicate
  rw [hcons, unescapeRawLoop, if_neg hback, ← hcons, htake, hdrop]
  dsimp only
  rw [hlen, if_pos (.inr rfl), List.append_nil]
  rfl

-- The backslashes before a delimiter are doubled, and one more is for the delimiter.
theorem RawReads.quoted (h : RawReads delim a r) (hdelim : delim ≠ 0x5c#8) (n : ℕ) :
    RawReads delim (backslashes (n + (n + 1)) ++ delim :: a) (backslashes n ++ delim :: r) := by
  intro fuel hfuel
  simp only [List.length_append, List.length_cons, backslashes, List.length_replicate] at hfuel
  obtain ⟨fuel, rfl⟩ := Nat.exists_eq_add_one_of_ne_zero (n := fuel) (by omega)
  rw [← Nat.add_assoc, unescapeRawLoop_run delim _ fuel hdelim, if_pos rfl, h fuel (by omega), show (n + n + 1) / 2 = n by omega]

-- The backslashes at the end are doubled.
theorem rawReads_end (delim : Byte) (n : ℕ) : RawReads delim (backslashes (n + n)) (backslashes n) := by
  intro fuel hfuel
  cases n with
  | zero => cases fuel <;> rfl
  | succ n =>
      simp only [backslashes, List.length_replicate] at hfuel
      obtain ⟨fuel, rfl⟩ := Nat.exists_eq_add_one_of_ne_zero (n := fuel) (by omega)
      rw [← Nat.add_assoc, unescapeRawLoop_end, show (n + 1 + n + 1) / 2 = n + 1 by omega]

-- Other backslashes stand for themselves.
theorem RawReads.run (h : RawReads delim a r) (hback : b ≠ 0x5c#8) (hdelim : b ≠ delim) (hret : b ≠ 0x0d#8) (n : ℕ) :
    RawReads delim (backslashes n ++ b :: a) (backslashes n ++ b :: r) := by
  cases n with
  | zero => exact h.raw hback hret
  | succ n =>
      intro fuel hfuel
      simp only [List.length_append, List.length_cons, backslashes, List.length_replicate] at hfuel
      obtain ⟨fuel, rfl⟩ := Nat.exists_eq_add_one_of_ne_zero (n := fuel) (by omega)
      rw [unescapeRawLoop_run delim _ fuel hback, if_neg hdelim, h fuel (by omega)]

end RawReads

section Escape

variable {delim : Byte}

theorem flatten_backslashes (n : ℕ) : (List.replicate n (text "\\")).flatten = backslashes n := by
  have htext : text "\\" = [0x5c#8] := by decide
  rw [htext, backslashes]
  induction n with
  | zero => rfl
  | succ n ih => rw [List.replicate_succ, List.replicate_succ, List.flatten_cons, ih]; rfl

-- What is written behind `escapes` backslashes is read with them.
theorem escapeRawLoop_reads (hdelim : delim ≠ 0x5c#8) (hlow : delim.toNat < 0x80) {ls : List (List Byte)}
    (hls : ∀ l ∈ ls, IsEncoding l) (hret : 0x0d#8 ∉ ls.flatten) (total escapes : ℕ) :
    RawReads delim (backslashes escapes ++ (escapeRawLoop (charOf [delim]) total escapes (ls.map charOf)).1)
      (backslashes escapes ++ ls.flatten) := by
  induction ls generalizing total escapes with
  | nil =>
      have hdouble : backslashes escapes ++ backslashes escapes = backslashes (escapes + escapes) := List.replicate_append_replicate
      rw [List.map_nil, escapeRawLoop, flatten_backslashes, List.flatten_nil, List.append_nil, hdouble]
      exact rawReads_end delim escapes
  | cons l ls ih =>
      rw [List.flatten_cons, List.mem_append, not_or] at hret
      have hl := hls l List.mem_cons_self
      have ih := ih (fun l' hl' => hls l' (List.mem_cons_of_mem _ hl')) hret.2
      have hlit : lit '\\' = charOf [0x5c#8] := by decide
      have hone : ∀ b : Byte, b.toNat < 0x80 → charOf l = charOf [b] → l = [b] :=
        fun b hb heq => hl.eq_of_charOf_eq (isClosed_ascii hb).toIsEncoding heq
      rw [List.map_cons, escapeRawLoop, List.flatten_cons, hl.writeChar_eq, hlit]
      by_cases hback : charOf l = charOf [0x5c#8]
      · obtain rfl := hone _ (by decide) hback
        have hsucc : ∀ rest, backslashes escapes ++ ([0x5c#8] ++ rest) = backslashes (escapes + 1) ++ rest := by
          intro rest
          rw [← List.append_assoc]
          congr 1
          exact List.replicate_succ'.symm
        rw [if_pos hback]
        dsimp only
        rw [hsucc, hsucc]
        exact ih total (escapes + 1)
      rw [if_neg hback]
      by_cases hquote : charOf l = charOf [delim]
      · obtain rfl := hone _ hlow hquote
        have hmore : backslashes escapes ++ backslashes (escapes + 1) = backslashes (escapes + (escapes + 1)) :=
          List.replicate_append_replicate
        rw [if_pos hquote]
        dsimp only
        rw [flatten_backslashes, List.append_assoc, ← List.append_assoc, hmore]
        exact (ih (total + (escapes + 1)) 0).quoted hdelim escapes
      · rw [if_neg hquote]
        dsimp only
        have hbytes : ∀ b ∈ l, b ≠ 0x5c#8 ∧ b ≠ delim ∧ b ≠ 0x0d#8 := by
          intro b hb
          refine ⟨?_, ?_, fun heq => hret.1 (heq ▸ hb)⟩
          · rintro rfl
            rcases hl.eq_or_high hb with rfl | hbig
            · exact hback rfl
            · exact absurd hbig (by decide)
          · rintro rfl
            rcases hl.eq_or_high hb with rfl | hbig
            · exact hquote rfl
            · omega
        obtain ⟨b, l, rfl⟩ := List.exists_cons_of_length_pos hl.pos
        obtain ⟨hb, hbdelim, hbret⟩ := hbytes b List.mem_cons_self
        have hrest := (ih total 0).rawAll fun b hb => ⟨(hbytes b (List.mem_cons_of_mem _ hb)).1, (hbytes b (List.mem_cons_of_mem _ hb)).2.2⟩
        exact hrest.run hb hbdelim hbret escapes

theorem le_escapeRawLoop (delim : Chr) (total escapes : ℕ) (cs : List Chr) : total ≤ (escapeRawLoop delim total escapes cs).2 := by
  induction cs generalizing total escapes with
  | nil => exact Nat.le_add_right _ _
  | cons c cs ih =>
      rw [escapeRawLoop]
      split_ifs
      · exact ih total (escapes + 1)
      · have := ih (total + (escapes + 1)) 0
        dsimp only
        omega
      · exact ih total 0

-- The count is only unchanged when nothing is escaped.
theorem escapeRawLoop_unchanged {delim : Chr} {total escapes : ℕ} {cs : List Chr}
    (h : (escapeRawLoop delim total escapes cs).2 = total) : (escapeRawLoop delim total escapes cs).1 = cs.flatMap writeChar := by
  induction cs generalizing total escapes with
  | nil =>
      obtain rfl : escapes = 0 := by
        rw [escapeRawLoop] at h
        dsimp only at h
        omega
      rfl
  | cons c cs ih =>
      rw [escapeRawLoop] at h ⊢
      split_ifs at h ⊢
      · rw [List.flatMap_cons, ← ih h]
      · have hle := le_escapeRawLoop delim (total + (escapes + 1)) 0 cs
        dsimp only at h
        omega
      · rw [List.flatMap_cons, ← ih h]

end Escape

end Joolia.JuliaSyntax

namespace Joolia.JuliaSyntax

open Fallible Strings

theorem slice_between (pre body post : List Byte) :
    slice (pre ++ body ++ post) pre.length (pre.length + body.length) = .ok body := by
  rw [slice, if_pos (.inl (by simp only [List.length_append]; omega)), List.append_assoc, List.take_length_add_append,
    List.drop_left, List.take_left]

section Quoted

variable (cat : BitVec 32 → ℕ) (s : Str)

theorem printQuoted_reads (hs : ∀ cs, chars s = .ok cs → ∀ c ∈ cs, ¬beyond c = true) :
    ∃ body, printQuoted cat s = .ok (text "\"" ++ body ++ text "\"") ∧ ∀ endind, Reads endind body s.data := by
  obtain ⟨ls, hchars, hls, hdata⟩ := chars_spec s
  have hesc : ∀ c ∈ [lit '"', lit '$'], isascii c = true := by
    simp only [List.mem_cons, List.not_mem_nil, or_false, forall_eq_or_imp, forall_eq]
    exact ⟨by decide, by decide⟩
  obtain ⟨es, hloop, hforms⟩ := escapeLoop_forms cat false false hesc ls hls
  refine ⟨es.flatten, ?_, fun endind => ?_⟩
  · rw [printQuoted, escapeString, hchars, ok_bind, hloop, ok_bind, pure_eq_ok]
  · rw [← hdata]
    exact forms_reads hforms hls fun l hl => hs _ hchars _ (List.mem_map_of_mem hl)

end Quoted

section Raw

def delimiter (isCmd : Bool) : Char := if isCmd then '`' else '"'

theorem escapeRawString_reads (s : Str) (hs : u8 '\r' ∉ s.data) (isCmd : Bool) :
    ∃ body, escapeRawString (lit (delimiter isCmd)) s = .ok body ∧ RawReads (u8 (delimiter isCmd)) body s.data := by
  obtain ⟨ls, hchars, hls, hdata⟩ := chars_spec s
  have hdelim : lit (delimiter isCmd) = charOf [u8 (delimiter isCmd)] ∧ u8 (delimiter isCmd) ≠ 0x5c#8 ∧
      (u8 (delimiter isCmd)).toNat < 0x80 := by
    cases isCmd <;> decide
  obtain ⟨hlit, hne, hlow⟩ := hdelim
  have hreads := escapeRawLoop_reads hne hlow hls (by rw [hdata]; exact hs) 0 0
  rw [hdata] at hreads
  rw [escapeRawString, hchars, hlit, ok_bind]
  dsimp only
  refine ⟨_, rfl, ?_⟩
  by_cases hzero : (escapeRawLoop (charOf [u8 (delimiter isCmd)]) 0 0 (ls.map charOf)).2 = 0
  · have hsame : (ls.map charOf).flatMap writeChar = s.data := by
      rw [← hdata, List.flatMap_map, List.flatMap_def]
      congr 1
      exact (List.map_congr_left fun l hl => (hls l hl).writeChar_eq).trans (List.map_id' ls)
    rw [if_pos hzero]
    rwa [escapeRawLoop_unchanged hzero, hsame] at hreads
  · rw [if_neg hzero]
    exact hreads

end Raw

-- What is printed is read back, wherever it stands in the source.
theorem printed_strings_read_back (cat : BitVec 32 → ℕ) (s : Str) :
    ((∀ cs, chars s = .ok cs → ∀ c ∈ cs, ¬beyond c = true) →
      ∃ body, printQuoted cat s = .ok (text "\"" ++ body ++ text "\"") ∧ ∀ pre post,
        unescapeJuliaString (pre ++ body ++ post) pre.length (pre.length + body.length) = .ok (.write s.data)) ∧
    (u8 '\r' ∉ s.data → ∀ isCmd, ∃ body, escapeRawString (lit (delimiter isCmd)) s = .ok body ∧ ∀ pre post,
      unescapeRawString (pre ++ body ++ post) pre.length (pre.length + body.length) isCmd = .ok s.data) := by
  constructor
  · intro hs
    obtain ⟨body, hprint, hreads⟩ := printQuoted_reads cat s hs
    refine ⟨body, hprint, fun pre post => ?_⟩
    rw [unescapeJuliaString, slice_between, ok_bind, hreads _ _ le_rfl]
  · intro hs isCmd
    obtain ⟨body, hescape, hreads⟩ := escapeRawString_reads s hs isCmd
    refine ⟨body, hescape, fun pre post => ?_⟩
    have hdelim : (if isCmd then u8 '`' else u8 '"') = u8 (delimiter isCmd) := by cases isCmd <;> rfl
    rw [unescapeRawString, slice_between, ok_bind, hdelim, hreads _ le_rfl, pure_eq_ok]

-- A quote, a dollar sign, backslashes, a null byte before a digit, and a byte that is no character.
def sample : Str := ⟨[0x22, 0x24, 0x5c, 0x5c, 0x22, 0x00, 0x31, 0xff, 0x5c], by decide⟩

theorem printed_strings_read_back_sample :
    (∃ body, printQuoted (fun _ => 1) sample = .ok (text "\"" ++ body ++ text "\"") ∧ ∀ pre post,
      unescapeJuliaString (pre ++ body ++ post) pre.length (pre.length + body.length) = .ok (.write sample.data)) ∧
    ∀ isCmd, ∃ body, escapeRawString (lit (delimiter isCmd)) sample = .ok body ∧ ∀ pre post,
      unescapeRawString (pre ++ body ++ post) pre.length (pre.length + body.length) isCmd = .ok sample.data := by
  obtain ⟨hchars, hsmall⟩ :
      chars sample = .ok ([[0x22], [0x24], [0x5c], [0x5c], [0x22], [0x00], [0x31], [0xff], [0x5c]].map charOf) ∧
        (([[0x22], [0x24], [0x5c], [0x5c], [0x22], [0x00], [0x31], [0xff], [0x5c]].map charOf).all fun c => !beyond c) = true := by
    set_option maxRecDepth 20000 in decide
  refine ⟨(printed_strings_read_back (fun _ => 1) sample).1 fun cs hcs c hc => ?_,
    (printed_strings_read_back (fun _ => 1) sample).2 (by decide)⟩
  obtain rfl := Except.ok.inj (hchars.symm.trans hcs)
  simpa using List.all_eq_true.1 hsmall c hc

end Joolia.JuliaSyntax
