import Joolia.Stdlib.Printf

namespace Joolia.Printf

open Fallible

section Grammar

def isFlag (b : UInt8) : Bool := (bytesOf "-+ 0#").contains b

def types : List UInt8 := bytesOf "diouxXDOUeEfFgGaAcCsSpn"

def modifiers : List (List UInt8) := ["", "h", "hh", "l", "ll", "L", "j", "q", "t", "z"].map bytesOf

-- What begins a width: a zero is a flag
def beginsWidth (b : UInt8) : Bool := b = byte '*' || isDigit b && b ≠ byte '0'

inductive IsWidth : List UInt8 → Prop
  | none : IsWidth []
  | dynamic : IsWidth [byte '*']
  | digits {d : UInt8} {ds : List UInt8} (hd : isDigit d) (hzero : d ≠ byte '0') (hds : ∀ b ∈ ds, isDigit b) : IsWidth (d :: ds)

inductive IsPrecision : List UInt8 → Prop
  | none : IsPrecision []
  | dynamic : IsPrecision [byte '.', byte '*']
  | digits {ds : List UInt8} (hds : ∀ b ∈ ds, isDigit b) : IsPrecision (byte '.' :: ds)

-- A conversion by its parts, without the percent sign
structure Conversion where
  flags : List UInt8
  width : List UInt8
  precision : List UInt8
  modifier : List UInt8
  type : UInt8
  flags_valid : ∀ b ∈ flags, isFlag b
  width_valid : IsWidth width
  precision_valid : IsPrecision precision
  modifier_valid : modifier ∈ modifiers
  type_valid : type ∈ types

def Conversion.text (c : Conversion) : List UInt8 := c.flags ++ (c.width ++ (c.precision ++ (c.modifier ++ [c.type])))

def Conversion.stars (c : Conversion) : ℕ := c.width.count (byte '*') + c.precision.count (byte '*')

inductive Text
  | byte (b : UInt8) (h : b ≠ byte '%')
  | percent

inductive Piece
  | text (t : Text)
  | conversion (c : Conversion)

-- What is printed: a byte, or the marker of a conversion
inductive Item
  | byte (b : UInt8)
  | marker (type : UInt8)

def Text.raw : Text → List UInt8
  | .byte b _ => [b]
  | .percent => [Printf.byte '%', Printf.byte '%']

def Text.read : Text → UInt8
  | .byte b _ => b
  | .percent => Printf.byte '%'

def Piece.raw : Piece → List UInt8
  | .text t => t.raw
  | .conversion c => byte '%' :: c.text

def Piece.read : Piece → Item
  | .text t => .byte t.read
  | .conversion c => .marker c.type

def conversions : List Piece → List Conversion
  | [] => []
  | .text _ :: pieces => conversions pieces
  | .conversion c :: pieces => c :: conversions pieces

end Grammar

section Statement

-- What `format` writes, with a marker where it formats an argument
def output (str : List UInt8) : Bool → List Spec → List UnitRange → List Item
  | _, _, [] => []
  | escapechar, fmts, r :: strs =>
      let (written, escapechar) := writeText escapechar (substring str r)
      written.map .byte ++ (match fmts with
        | [] => []
        | spec :: fmts => .marker spec.type :: output str escapechar fmts strs)

def Format.output (f : Format) : List Item := Printf.output f.str false f.formats f.substringranges

def ReadsFormat (f : List UInt8) : Prop :=
  match Format.new f with
  | .ok format =>
      ∃ pieces : List Piece, pieces.flatMap Piece.raw = f ∧ format.output = pieces.map Piece.read ∧
        format.formats.length = (conversions pieces).length ∧
        format.numarguments = (conversions pieces).length + ((conversions pieces).map Conversion.stars).sum
  | .error (.InvalidFormatStringError _ _ _) => True
  | .error _ => False

-- The string ends in a conversion that stops at its asterisk or at the first digit of its width.
def EndsInWidth (f : List UInt8) : Prop :=
  ∃ (pieces : List Piece) (flags : List UInt8) (b : UInt8),
    f = pieces.flatMap Piece.raw ++ byte '%' :: (flags ++ [b]) ∧ (∀ x ∈ flags, isFlag x) ∧ beginsWidth b

end Statement

section Parse

variable (last_percent_pos pos : ℕ) {b₀ b : UInt8} {rest₀ rest : List UInt8}

-- An error of the kind the parser is meant to throw
def IsInvalid {α : Type} (x : Except FormatError α) : Prop := ∃ message s e, x = .error (.InvalidFormatStringError message s e)

theorem isInvalid_bind {α β : Type} {x : Except FormatError α} (h : IsInvalid x) (f : α → Except FormatError β) : IsInvalid (x >>= f) := by
  obtain ⟨message, s, e, rfl⟩ := h
  exact ⟨message, s, e, rfl⟩

theorem set_eq_none_iff (flags : Flags) (b : UInt8) : flags.set b = none ↔ isFlag b = false := by
  unfold Flags.set isFlag bytesOf
  split_ifs <;> simp_all

theorem exists_set (flags : Flags) {b : UInt8} (hb : isFlag b) : ∃ flags', flags.set b = some flags' := by
  cases h : flags.set b with
  | none => simp [(set_eq_none_iff flags b).1 h] at hb
  | some flags' => exact ⟨flags', rfl⟩

theorem parseFlags_read {fs : List UInt8} (hfs : ∀ x ∈ fs, isFlag x) (hb : isFlag b = false) (flags : Flags)
    (h : b₀ :: rest₀ = fs ++ b :: rest) :
    ∃ flags', parseFlags last_percent_pos flags pos b₀ rest₀ = .ok (flags', ⟨pos + fs.length, b, rest⟩) := by
  induction fs generalizing flags pos b₀ rest₀ with
  | nil =>
      obtain ⟨rfl, rfl⟩ := List.cons.inj h
      refine ⟨flags, ?_⟩
      rw [parseFlags.eq_def, (set_eq_none_iff flags b₀).2 hb]
      rfl
  | cons x fs ih =>
      rw [List.cons_append] at h
      injection h with hb₀ hrest₀
      subst hb₀ hrest₀
      obtain ⟨flags', hset⟩ := exists_set flags (hfs b₀ (by simp))
      obtain ⟨c, rest', hrest⟩ := List.exists_cons_of_ne_nil (l := fs ++ b :: rest) (by simp)
      obtain ⟨flags'', hrec⟩ := ih (pos + 1) (fun y hy => hfs y (by simp [hy])) flags' hrest.symm
      refine ⟨flags'', ?_⟩
      rw [parseFlags.eq_def, hset, hrest]
      simp only [hrec, List.length_cons, Nat.add_assoc, Nat.add_comm 1]

theorem parseFlags_ends (flags : Flags) (h : ∀ x ∈ b₀ :: rest₀, isFlag x) :
    IsInvalid (parseFlags last_percent_pos flags pos b₀ rest₀) := by
  induction rest₀ generalizing flags pos b₀ with
  | nil =>
      obtain ⟨flags', hset⟩ := exists_set flags (h b₀ (by simp))
      rw [parseFlags.eq_def, hset]
      exact ⟨_, _, _, rfl⟩
  | cons c rest ih =>
      obtain ⟨flags', hset⟩ := exists_set flags (h b₀ (by simp))
      rw [parseFlags.eq_def, hset]
      exact ih (pos + 1) flags' fun x hx => h x (by simp [hx])

-- A number ends before the first byte that is no digit, or before the last byte.
theorem parseDigits_read {ds : List UInt8} (hds : ∀ x ∈ ds, isDigit x) (hb : isDigit b → rest = [] ∧ ds ≠ []) (value : ℤ)
    (h : b₀ :: rest₀ = ds ++ b :: rest) :
    ∃ value', parseDigits value pos b₀ rest₀ = .ok (value', ⟨pos + ds.length, b, rest⟩) := by
  induction ds generalizing value pos b₀ rest₀ with
  | nil =>
      obtain ⟨rfl, rfl⟩ := List.cons.inj h
      have hdigit : isDigit b₀ = false := Bool.eq_false_iff.2 fun hdigit => (hb hdigit).2 rfl
      refine ⟨value, ?_⟩
      rw [parseDigits.eq_def]
      cases rest₀ <;> simp [hdigit]
  | cons x ds ih =>
      rw [List.cons_append] at h
      injection h with hb₀ hrest₀
      subst hb₀ hrest₀
      have hdigit : isDigit b₀ := hds b₀ (by simp)
      cases ds with
      | nil =>
          rw [parseDigits.eq_def]
          simp only [List.nil_append, hdigit, if_true]
          by_cases hrest : rest = []
          · subst hrest
            exact ⟨_, rfl⟩
          · have hb' : isDigit b = false := Bool.eq_false_iff.2 fun hdigit => hrest (hb hdigit).1
            obtain ⟨value', hrec⟩ := ih (pos + 1) (by simp) (by simp [hb']) (int64 (10 * value + (b₀ - byte '0').toNat)) rfl
            exact ⟨value', by simp [hrest, hrec]⟩
      | cons y ds =>
          rw [parseDigits.eq_def]
          obtain ⟨value', hrec⟩ := ih (pos + 1) (fun z hz => hds z (by simp [hz]))
            (fun hdigit => ⟨(hb hdigit).1, by simp⟩) (int64 (10 * value + (b₀ - byte '0').toNat)) List.cons_append.symm
          refine ⟨value', ?_⟩
          simp only [List.cons_append]
          rw [if_pos hdigit, if_neg (by simp), hrec]
          simp [Nat.add_assoc, Nat.add_comm 1]

theorem parseDigits_ends (hb : isDigit b) (value : ℤ) : parseDigits value pos b [] = .error .BoundsError := by
  rw [parseDigits.eq_def]
  exact if_pos hb

theorem parseWidth_read {w : List UInt8} (hw : IsWidth w) (hstar : w = [] → b ≠ byte '*')
    (hb : w ≠ [byte '*'] → isDigit b → rest = [] ∧ w ≠ []) (h : b₀ :: rest₀ = w ++ b :: rest) :
    ∃ width dynamic_width, parseWidth ⟨pos, b₀, rest₀⟩ = .ok (width, dynamic_width, ⟨pos + w.length, b, rest⟩) ∧
      dynamic_width.toNat = w.count (byte '*') := by
  cases hw with
  | dynamic =>
      injection h with hb₀ hrest₀
      subst hb₀ hrest₀
      exact ⟨0, true, rfl, rfl⟩
  | none =>
      have hne : b₀ ≠ byte '*' := (List.cons.inj h).1 ▸ hstar rfl
      obtain ⟨width, hread⟩ := parseDigits_read pos (by simp) (hb (by simp)) 0 h
      refine ⟨width, false, ?_, rfl⟩
      simp [parseWidth, hne, hread]
  | @digits d ds hd hzero hds =>
      have hall : ∀ x ∈ d :: ds, isDigit x := by simpa [hd] using hds
      have hnot : byte '*' ∉ d :: ds := fun hmem => absurd (hall _ hmem) (by decide)
      have hne : b₀ ≠ byte '*' := by
        have hb₀ : b₀ = d := (List.cons.inj h).1
        exact fun heq => hnot (by simp [← heq, hb₀])
      obtain ⟨width, hread⟩ := parseDigits_read pos hall (hb fun heq => hnot (by simp [heq])) 0 h
      refine ⟨width, false, ?_, (List.count_eq_zero.2 hnot).symm⟩
      simp [parseWidth, hne, hread]

theorem parseWidth_ends (hb : beginsWidth b) : parseWidth ⟨pos, b, []⟩ = .error .BoundsError := by
  by_cases hstar : b = byte '*'
  · simp [parseWidth, hstar, Cursor.next]
  · have hdigit : isDigit b := by
      simp only [beginsWidth, hstar, decide_false, Bool.false_or, Bool.and_eq_true] at hb
      exact hb.1
    simp [parseWidth, hstar, parseDigits_ends pos hdigit]

theorem parsePrecision_read {p : List UInt8} (hp : IsPrecision p) (hdot : p = [] → b ≠ byte '.')
    (hstar : p = [byte '.'] → rest ≠ [] → b ≠ byte '*')
    (hb : p ≠ [] → p ≠ [byte '.', byte '*'] → isDigit b → rest = []) (h : b₀ :: rest₀ = p ++ b :: rest) :
    ∃ prec, parsePrecision last_percent_pos ⟨pos, b₀, rest₀⟩ = .ok (prec, ⟨pos + p.length, b, rest⟩) ∧
      prec.dynamic_precision.toNat = p.count (byte '*') := by
  cases hp with
  | none =>
      injection h with hb₀ hrest₀
      subst hb₀ hrest₀
      exact ⟨⟨0, false, false⟩, by simp [parsePrecision, hdot rfl], rfl⟩
  | dynamic =>
      injection h with hb₀ hrest₀
      subst hb₀ hrest₀
      exact ⟨⟨0, true, true⟩, rfl, rfl⟩
  | @digits ds hds =>
      have hnot : byte '*' ∉ byte '.' :: ds := by
        have hdigits : byte '*' ∉ ds := fun hmem => absurd (hds _ hmem) (by decide)
        simpa using ⟨(by decide : byte '*' ≠ byte '.'), hdigits⟩
      have hcount : (byte '.' :: ds).count (byte '*') = 0 := List.count_eq_zero.2 hnot
      rw [List.cons_append] at h
      injection h with hb₀ hrest₀
      subst hb₀
      by_cases hlast : ds = [] ∧ rest = []
      · -- the byte after the dot is the last one
        obtain ⟨rfl, rfl⟩ := hlast
        subst hrest₀
        exact ⟨⟨0, true, false⟩, rfl, hcount.symm⟩
      · obtain ⟨c, cs, hcs⟩ := List.exists_cons_of_ne_nil (l := ds ++ b :: rest) (by simp)
        have hc : c ≠ byte '*' := by
          cases ds with
          | nil =>
              have hbc : b = c := (List.cons.inj hcs).1
              exact hbc ▸ hstar rfl fun hrest => hlast ⟨rfl, hrest⟩
          | cons d ds =>
              have hdc : d = c := (List.cons.inj hcs).1
              exact fun heq => hnot (by simp [← heq, hdc])
        have hne : cs ≠ [] := by
          rintro rfl
          have hlength := congrArg List.length hcs
          simp only [List.length_append, List.length_cons, List.length_nil] at hlength
          exact hlast ⟨List.length_eq_zero_iff.1 (by omega), List.length_eq_zero_iff.1 (by omega)⟩
        have hstop : isDigit b → rest = [] ∧ ds ≠ [] := fun hdigit => by
          have hrest := hb (by simp) (fun heq => hnot (by simp [heq])) hdigit
          exact ⟨hrest, fun hds => hlast ⟨hds, hrest⟩⟩
        obtain ⟨value, hread⟩ := parseDigits_read (pos + 1) hds hstop 0 hcs.symm
        refine ⟨⟨value, true, false⟩, ?_, hcount.symm⟩
        subst hrest₀
        rw [hcs]
        simp [parsePrecision, Cursor.nextOr, hne, hc, hread, Nat.add_assoc, Nat.add_comm 1]

theorem parsePrecision_ends : IsInvalid (parsePrecision last_percent_pos ⟨pos, byte '.', []⟩) := ⟨_, _, _, rfl⟩

set_option maxRecDepth 2000 in
theorem parseModifier_read {m : List UInt8} (hm : m ∈ modifiers) (hb : b ∈ types) (h : b₀ :: rest₀ = m ++ b :: rest) :
    parseModifier last_percent_pos ⟨pos, b₀, rest₀⟩ = .ok ⟨pos + m.length, b, rest⟩ := by
  have hclear : ∀ t ∈ types, t ≠ byte 'h' ∧ t ≠ byte 'l' ∧ t ∉ bytesOf "Ljqtz" := by decide
  obtain ⟨hh, hl, hone⟩ := hclear b hb
  have hsplit : ∀ m ∈ modifiers,
      m = [] ∨ (∃ c ∈ bytesOf "hl", m = [c]) ∨ (∃ c ∈ bytesOf "hl", m = [c, c]) ∨ ∃ c ∈ bytesOf "Ljqtz", m = [c] := by decide
  have hletters : ∀ c ∈ bytesOf "hl", c = byte 'h' ∨ c = byte 'l' := by decide
  rcases hsplit m hm with rfl | ⟨c, hc, rfl⟩ | ⟨c, hc, rfl⟩ | ⟨c, hc, rfl⟩
  · injection h with hb₀ hrest₀
    subst hb₀ hrest₀
    simp [parseModifier, hh, hl, hone]
  · injection h with hb₀ hrest₀
    subst hb₀ hrest₀
    have hne : b ≠ b₀ := by rcases hletters b₀ hc with rfl | rfl <;> assumption
    simp [parseModifier, hletters b₀ hc, Cursor.nextOr, hne]
  · injection h with hb₀ hrest₀
    subst hb₀ hrest₀
    simp [parseModifier, hletters b₀ hc, Cursor.nextOr]
  · injection h with hb₀ hrest₀
    subst hb₀ hrest₀
    have hclear : ∀ c ∈ bytesOf "Ljqtz", ¬(c = byte 'h' ∨ c = byte 'l') := by decide
    simp [parseModifier, hclear b₀ hc, hc, Cursor.nextOr]

set_option maxRecDepth 2000 in
theorem parseModifier_cases (last_percent_pos : ℕ) (cur : Cursor) :
    (∃ m next, m ∈ modifiers ∧ cur.b :: cur.rest = m ++ next.b :: next.rest ∧
        parseModifier last_percent_pos cur = .ok next ∧ next.pos = cur.pos + m.length) ∨
      IsInvalid (parseModifier last_percent_pos cur) := by
  obtain ⟨pos, b, rest⟩ := cur
  by_cases hhl : b = byte 'h' ∨ b = byte 'l'
  · cases rest with
    | nil => exact .inr ⟨_, _, _, by simp [parseModifier, hhl, Cursor.nextOr]; exact ⟨rfl, rfl, rfl⟩⟩
    | cons c rest =>
        by_cases hc : c = b
        · subst hc
          cases rest with
          | nil => exact .inr ⟨_, _, _, by simp [parseModifier, hhl, Cursor.nextOr]; exact ⟨rfl, rfl, rfl⟩⟩
          | cons d rest =>
              refine .inl ⟨[c, c], ⟨pos + 2, d, rest⟩, ?_, rfl, ?_, rfl⟩
              · rcases hhl with rfl | rfl <;> decide
              · simp [parseModifier, hhl, Cursor.nextOr]
        · refine .inl ⟨[b], ⟨pos + 1, c, rest⟩, ?_, rfl, ?_, rfl⟩
          · rcases hhl with rfl | rfl <;> decide
          · simp [parseModifier, hhl, Cursor.nextOr, hc]
  · by_cases hone : b ∈ bytesOf "Ljqtz"
    · cases rest with
      | nil => exact .inr ⟨_, _, _, by simp [parseModifier, hhl, hone, Cursor.nextOr]; exact ⟨rfl, rfl, rfl⟩⟩
      | cons c rest =>
          have hmem : ∀ x ∈ bytesOf "Ljqtz", [x] ∈ modifiers := by decide
          exact .inl ⟨[b], ⟨pos + 1, c, rest⟩, hmem b hone, rfl, by simp [parseModifier, hhl, hone, Cursor.nextOr], rfl⟩
    · exact .inl ⟨[], ⟨pos, b, rest⟩, by decide, rfl, by simp [parseModifier, hhl, hone], rfl⟩

theorem parseType_read (flags : Flags) (width : ℤ) (dynamic_width : Bool) (prec : Precision) (cur : Cursor) (hb : cur.b ∈ types) :
    ∃ spec, parseType last_percent_pos flags width dynamic_width prec cur = .ok spec ∧ spec.type = cur.b :=
  ⟨_, if_neg (not_not.2 (List.contains_iff_mem.2 hb)), rfl⟩

theorem parseType_ends (flags : Flags) (width : ℤ) (dynamic_width : Bool) (prec : Precision) (cur : Cursor) (hb : cur.b ∉ types) :
    IsInvalid (parseType last_percent_pos flags width dynamic_width prec cur) := by
  refine ⟨_, _, _, if_pos ?_⟩
  exact fun hmem => hb (List.contains_iff_mem.1 hmem)

end Parse

section Cases

variable {b : UInt8} {rest : List UInt8}

theorem exists_split (p : UInt8 → Bool) (l : List UInt8) :
    ∃ fs rest, l = fs ++ rest ∧ (∀ x ∈ fs, p x) ∧ ∀ b rest', rest = b :: rest' → p b = false := by
  induction l with
  | nil => exact ⟨[], [], rfl, by simp, by simp⟩
  | cons x l ih =>
      cases hx : p x with
      | false => exact ⟨[], x :: l, rfl, by simp, fun b rest' h => (List.cons.inj h).1 ▸ hx⟩
      | true =>
          obtain ⟨fs, rest, rfl, hfs, hrest⟩ := ih
          exact ⟨x :: fs, rest, rfl, by simpa [hx] using hfs, hrest⟩

-- A number that begins before the last byte.
theorem exists_digits (hb : isDigit b) (hrest : rest ≠ []) :
    ∃ ds b' rest', rest = ds ++ b' :: rest' ∧ (∀ x ∈ b :: ds, isDigit x) ∧ (isDigit b' → rest' = []) := by
  obtain ⟨ds, r, rfl, hds, hstop⟩ := exists_split isDigit rest
  cases r with
  | cons b' rest' => exact ⟨ds, b', rest', rfl, by simpa [hb] using hds, fun hdigit => absurd hdigit (by simp [hstop b' rest' rfl])⟩
  | nil =>
      -- a text of digits only: the last one is left for the type
      rcases List.eq_nil_or_concat ds with rfl | ⟨ds', last, rfl⟩
      · exact absurd rfl hrest
      · exact ⟨ds', last, [], by simp, fun x hx => by rcases List.mem_cons.1 hx with rfl | hx; exacts [hb, hds x (by simp [hx])], fun _ => rfl⟩

theorem parseWidth_cases (pos : ℕ) (rest : List UInt8) (hflag : isFlag b = false) :
    (beginsWidth b ∧ rest = []) ∨
      ∃ w b' rest' width dynamic_width, IsWidth w ∧ b :: rest = w ++ b' :: rest' ∧
        parseWidth ⟨pos, b, rest⟩ = .ok (width, dynamic_width, ⟨pos + w.length, b', rest'⟩) := by
  by_cases hbegins : beginsWidth b
  · cases rest with
    | nil => exact .inl ⟨hbegins, rfl⟩
    | cons c rest =>
        refine .inr ?_
        by_cases hstar : b = byte '*'
        · subst hstar
          exact ⟨[byte '*'], c, rest, 0, true, .dynamic, rfl, rfl⟩
        · simp only [beginsWidth, hstar, decide_false, Bool.false_or, Bool.and_eq_true, decide_eq_true_eq] at hbegins
          obtain ⟨ds, b', rest', hsplit, hds, hstop⟩ := exists_digits hbegins.1 (List.cons_ne_nil c rest)
          have hw : IsWidth (b :: ds) := .digits hbegins.1 hbegins.2 fun x hx => hds x (by simp [hx])
          have htext : b :: c :: rest = (b :: ds) ++ b' :: rest' := by rw [hsplit, List.cons_append]
          obtain ⟨width, dynamic_width, hread, -⟩ := parseWidth_read pos hw (by simp) (fun _ hdigit => ⟨hstop hdigit, by simp⟩) htext
          exact ⟨_, b', rest', width, dynamic_width, hw, htext, hread⟩
  · have hstar : b ≠ byte '*' := by
      rintro rfl
      exact hbegins rfl
    have hdigit : isDigit b = false := by
      refine Bool.eq_false_iff.2 fun hdigit => ?_
      by_cases hzero : b = byte '0'
      · rw [hzero] at hflag
        exact absurd hflag (by decide)
      · exact hbegins (by simp [beginsWidth, hdigit, hzero])
    obtain ⟨width, dynamic_width, hread, -⟩ := parseWidth_read pos .none (fun _ => hstar) (by simp [hdigit]) (List.nil_append (b :: rest)).symm
    exact .inr ⟨[], b, rest, width, dynamic_width, .none, rfl, hread⟩

theorem parsePrecision_cases (last_percent_pos pos : ℕ) (b : UInt8) (rest : List UInt8) :
    IsInvalid (parsePrecision last_percent_pos ⟨pos, b, rest⟩) ∨
      ∃ p b' rest' prec, IsPrecision p ∧ b :: rest = p ++ b' :: rest' ∧
        parsePrecision last_percent_pos ⟨pos, b, rest⟩ = .ok (prec, ⟨pos + p.length, b', rest'⟩) := by
  by_cases hdot : b = byte '.'
  · subst hdot
    cases rest with
    | nil => exact .inl (parsePrecision_ends last_percent_pos pos)
    | cons c rest =>
        refine .inr ?_
        by_cases hstar : c = byte '*' ∧ rest ≠ []
        · obtain ⟨rfl, hrest⟩ := hstar
          obtain ⟨d, ds, rfl⟩ := List.exists_cons_of_ne_nil hrest
          exact ⟨[byte '.', byte '*'], d, ds, _, .dynamic, rfl, rfl⟩
        · by_cases hdigit : isDigit c ∧ rest ≠ []
          · obtain ⟨ds, b', rest', hsplit, hds, hstop⟩ := exists_digits hdigit.1 hdigit.2
            have htext : byte '.' :: c :: rest = (byte '.' :: c :: ds) ++ b' :: rest' := by rw [hsplit]; rfl
            obtain ⟨prec, hread, -⟩ := parsePrecision_read last_percent_pos pos (.digits hds)
              (by simp) (by simp) (fun _ _ => hstop) htext
            exact ⟨_, b', rest', prec, .digits hds, htext, hread⟩
          · have hp : IsPrecision [byte '.'] := .digits (by simp)
            obtain ⟨prec, hread, -⟩ := parsePrecision_read last_percent_pos pos hp (by simp)
              (fun _ hrest heq => hstar ⟨heq, hrest⟩) (fun _ _ hc => not_not.1 fun hrest => hdigit ⟨hc, hrest⟩) rfl
            exact ⟨_, c, rest, prec, hp, rfl, hread⟩
  · obtain ⟨prec, hread, -⟩ := parsePrecision_read last_percent_pos pos .none (fun _ => hdot)
      (by simp) (by simp) (List.nil_append (b :: rest)).symm
    exact .inr ⟨[], b, rest, prec, .none, rfl, hread⟩

end Cases

section Specifiers

variable (last_percent_pos pos : ℕ) {b : UInt8} {rest : List UInt8}

-- A byte that begins no flag, width or precision
def isPlain (b : UInt8) : Bool := !isFlag b && b ≠ byte '*' && !isDigit b && b ≠ byte '.'

theorem isPlain_iff : isPlain b ↔ isFlag b = false ∧ b ≠ byte '*' ∧ isDigit b = false ∧ b ≠ byte '.' := by
  simp only [isPlain, Bool.and_eq_true, Bool.not_eq_true', decide_eq_true_eq, and_assoc]

set_option maxRecDepth 2000 in
theorem exists_plain (c : Conversion) (rest : List UInt8) :
    ∃ b rest', c.modifier ++ c.type :: rest = b :: rest' ∧ isPlain b := by
  cases hm : c.modifier with
  | nil =>
      have hplain : ∀ t ∈ types, isPlain t := by decide
      exact ⟨c.type, rest, rfl, hplain c.type c.type_valid⟩
  | cons x m =>
      have hplain : ∀ m ∈ modifiers, ∀ x ∈ m, isPlain x := by decide
      exact ⟨x, m ++ c.type :: rest, rfl, hplain c.modifier c.modifier_valid x (by simp [hm])⟩

set_option maxRecDepth 2000 in
theorem isFlag_of_beginsWidth (h : beginsWidth b) : isFlag b = false := by
  by_cases hflag : isFlag b
  · have hnot : ∀ x ∈ bytesOf "-+ 0#", beginsWidth x = false := by decide
    simp [hnot b (List.contains_iff_mem.1 hflag)] at h
  · simpa using hflag

-- After the flags of a conversion stands something else.
theorem exists_unflagged {w p : List UInt8} (hw : IsWidth w) (hp : IsPrecision p) {l : List UInt8}
    (hl : ∃ b rest', l = b :: rest' ∧ isFlag b = false) : ∃ b rest', w ++ (p ++ l) = b :: rest' ∧ isFlag b = false := by
  cases hw with
  | dynamic => exact ⟨_, _, rfl, by decide⟩
  | @digits d ds hd hzero hds => exact ⟨d, _, rfl, isFlag_of_beginsWidth (by simp [beginsWidth, hd, hzero])⟩
  | none =>
      cases hp with
      | none => exact hl
      | dynamic => exact ⟨_, _, rfl, by decide⟩
      | digits hds => exact ⟨_, _, rfl, by decide⟩

theorem parseSpec_read {b₀ : UInt8} {rest₀ : List UInt8} (c : Conversion) (h : b₀ :: rest₀ = c.text ++ rest) :
    ∃ spec, parseSpec last_percent_pos ⟨pos, b₀, rest₀⟩ = .ok (spec, c.stars, ⟨pos + c.text.length - 1, c.type, rest⟩) ∧
      spec.type = c.type := by
  obtain ⟨b₃, rest₃, h₃, hplain⟩ := exists_plain c rest
  obtain ⟨hflag, hstar, hdigit, hdot⟩ := isPlain_iff.1 hplain
  obtain ⟨b₁, rest₁, h₁, hflag₁⟩ := exists_unflagged c.width_valid c.precision_valid ⟨b₃, rest₃, h₃, hflag⟩
  have htext : b₀ :: rest₀ = c.flags ++ b₁ :: rest₁ := by
    rw [h, ← h₁]
    simp [Conversion.text]
  obtain ⟨flags, hflags⟩ := parseFlags_read last_percent_pos pos c.flags_valid hflag₁ ⟨false, false, false, false, false⟩ htext
  -- the byte after the width
  obtain ⟨b₂, rest₂, h₂⟩ := List.exists_cons_of_ne_nil (l := c.precision ++ b₃ :: rest₃) (by simp)
  have hb₂ : b₂ ≠ byte '*' ∧ isDigit b₂ = false := by
    cases hp : c.precision with
    | nil =>
        rw [hp, List.nil_append] at h₂
        obtain rfl := (List.cons.inj h₂).1
        exact ⟨hstar, hdigit⟩
    | cons x p =>
        have hx : x = byte '.' := by
          have hvalid := c.precision_valid
          rw [hp] at hvalid
          cases hvalid <;> rfl
        rw [hp, List.cons_append] at h₂
        obtain rfl := (List.cons.inj h₂).1
        exact hx ▸ ⟨by decide, by decide⟩
  obtain ⟨width, dynamic_width, hwidth, hcount⟩ := parseWidth_read (pos + c.flags.length) c.width_valid (fun _ => hb₂.1)
    (fun _ hd => absurd hd (by simp [hb₂.2])) (show b₁ :: rest₁ = c.width ++ b₂ :: rest₂ by rw [← h₁, h₃, h₂])
  obtain ⟨prec, hprec, hcount'⟩ := parsePrecision_read last_percent_pos (pos + c.flags.length + c.width.length) c.precision_valid
    (fun _ => hdot) (fun _ _ => hstar) (fun _ _ hd => absurd hd (by simp [hdigit])) h₂.symm
  have hmodifier := parseModifier_read last_percent_pos (pos + c.flags.length + c.width.length + c.precision.length)
    c.modifier_valid c.type_valid h₃.symm
  obtain ⟨spec, htype, hspec⟩ := parseType_read last_percent_pos flags width dynamic_width prec
    ⟨pos + c.flags.length + c.width.length + c.precision.length + c.modifier.length, c.type, rest⟩ c.type_valid
  refine ⟨spec, ?_, hspec⟩
  simp only [parseSpec, hflags, hwidth, hprec, hmodifier, htype, ok_bind, pure_eq_ok, hcount, hcount', Conversion.stars]
  simp only [Conversion.text, List.length_append, List.length_cons, List.length_nil, Nat.add_assoc]
  rfl

theorem parseSpec_ends {b₀ : UInt8} {rest₀ fs : List UInt8} (hfs : ∀ x ∈ fs, isFlag x) (hb : beginsWidth b) (h : b₀ :: rest₀ = fs ++ [b]) :
    parseSpec last_percent_pos ⟨pos, b₀, rest₀⟩ = .error .BoundsError := by
  obtain ⟨flags, hflags⟩ := parseFlags_read last_percent_pos pos hfs (isFlag_of_beginsWidth hb) ⟨false, false, false, false, false⟩ h
  simp only [parseSpec, hflags, ok_bind, parseWidth_ends (pos + fs.length) hb, error_bind]

theorem parseSpec_cases (b₀ : UInt8) (rest₀ : List UInt8) :
    (∃ (c : Conversion) (rest : List UInt8), b₀ :: rest₀ = c.text ++ rest) ∨
      (∃ flags b, b₀ :: rest₀ = flags ++ [b] ∧ (∀ x ∈ flags, isFlag x) ∧ beginsWidth b) ∨
      IsInvalid (parseSpec last_percent_pos ⟨pos, b₀, rest₀⟩) := by
  obtain ⟨fs, r, htext, hfs, hstop⟩ := exists_split isFlag (b₀ :: rest₀)
  cases r with
  | nil =>
      rw [List.append_nil] at htext
      exact .inr (.inr (isInvalid_bind (parseFlags_ends last_percent_pos pos _ fun x hx => hfs x (htext ▸ hx)) _))
  | cons b₁ rest₁ =>
      have hflag := hstop b₁ rest₁ rfl
      obtain ⟨flags, hflags⟩ := parseFlags_read last_percent_pos pos hfs hflag ⟨false, false, false, false, false⟩ htext
      rcases parseWidth_cases (pos + fs.length) rest₁ hflag with ⟨hbegins, rfl⟩ | ⟨w, b₂, rest₂, width, dyn, hw, h₁, hwidth⟩
      · exact .inr (.inl ⟨fs, b₁, htext, hfs, hbegins⟩)
      · refine or_iff_not_imp_left.2 fun hnone => .inr ?_
        simp only [parseSpec, hflags, ok_bind, hwidth]
        rcases parsePrecision_cases last_percent_pos (pos + fs.length + w.length) b₂ rest₂ with hprec | ⟨p, b₃, rest₃, prec, hp, h₂, hprec⟩
        · exact isInvalid_bind hprec _
        · simp only [hprec, ok_bind]
          rcases parseModifier_cases last_percent_pos ⟨pos + fs.length + w.length + p.length, b₃, rest₃⟩ with
            ⟨m, ⟨pos₄, b₄, rest₄⟩, hm, h₃, hmodifier, -⟩ | hmodifier
          · simp only [hmodifier, ok_bind]
            by_cases htype : b₄ ∈ types
            · -- every part was read: the text begins with a conversion
              refine absurd ⟨⟨fs, w, p, m, b₄, hfs, hw, hp, hm, htype⟩, rest₄, ?_⟩ hnone
              rw [htext, h₁, h₂, h₃]
              simp [Conversion.text]
            · exact isInvalid_bind (parseType_ends last_percent_pos flags width dyn prec _ htype) _
          · exact isInvalid_bind hmodifier _

end Specifiers

section Texts

variable (pos : ℕ) (b : UInt8) {d : UInt8} {rest : List UInt8}

theorem exists_texts (l : List UInt8) :
    ∃ (ts : List Text) (r : List UInt8), l = ts.flatMap Text.raw ++ r ∧
      (r = [] ∨ r = [byte '%'] ∨ ∃ d rest, r = byte '%' :: d :: rest ∧ d ≠ byte '%') := by
  induction hn : l.length using Nat.strong_induction_on generalizing l with
  | _ n ih =>
    subst hn
    cases l with
    | nil => exact ⟨[], [], rfl, .inl rfl⟩
    | cons c l =>
        by_cases hc : c = byte '%'
        · subst hc
          cases l with
          | nil => exact ⟨[], [byte '%'], rfl, .inr (.inl rfl)⟩
          | cons d l =>
              by_cases hd : d = byte '%'
              · subst hd
                obtain ⟨ts, r, rfl, hr⟩ := ih l.length (by simp only [List.length_cons]; omega) l rfl
                exact ⟨.percent :: ts, r, rfl, hr⟩
              · exact ⟨[], byte '%' :: d :: l, rfl, .inr (.inr ⟨d, l, rfl, hd⟩)⟩
        · obtain ⟨ts, r, rfl, hr⟩ := ih l.length (by simp) l rfl
          exact ⟨.byte c hc :: ts, r, rfl, hr⟩

-- The text in front of what follows it.
theorem skip_texts (ts : List Text) (l : List UInt8) :
    skip pos b (ts.flatMap Text.raw ++ l) =
      skip (pos + (ts.flatMap Text.raw).length) ((ts.flatMap Text.raw).getLast?.getD b) l := by
  induction ts generalizing pos b with
  | nil => rfl
  | cons t ts ih =>
      cases t with
      | byte c hc =>
          have hstep : skip pos b (c :: (ts.flatMap Text.raw ++ l)) = skip (pos + 1) c (ts.flatMap Text.raw ++ l) := by
            rw [skip.eq_def]
            exact if_neg hc
          simp only [List.flatMap_cons, Text.raw, List.nil_append, List.cons_append, List.length_cons, List.getLast?_cons, Option.getD_some]
          rw [hstep, ih, Nat.add_assoc, Nat.add_comm 1]
      | percent =>
          have hstep : skip pos b (byte '%' :: byte '%' :: (ts.flatMap Text.raw ++ l)) = skip (pos + 2) (byte '%') (ts.flatMap Text.raw ++ l) := by
            rw [skip.eq_def]
            exact (if_pos rfl).trans (if_pos rfl)
          simp only [List.flatMap_cons, Text.raw, List.cons_append, List.nil_append, List.length_cons, List.getLast?_cons, Option.getD_some]
          rw [hstep, ih, Nat.add_assoc, Nat.add_comm 2]

theorem skip_ends (ts : List Text) :
    skip pos b (ts.flatMap Text.raw) = .ok ⟨pos + (ts.flatMap Text.raw).length, (ts.flatMap Text.raw).getLast?.getD b, []⟩ := by
  have h := skip_texts pos b ts []
  rw [List.append_nil] at h
  exact h.trans (by rw [skip.eq_def])

theorem skip_read (ts : List Text) (hd : d ≠ byte '%') :
    skip pos b (ts.flatMap Text.raw ++ byte '%' :: d :: rest) = .ok ⟨pos + (ts.flatMap Text.raw).length + 1, byte '%', d :: rest⟩ := by
  rw [skip_texts, skip.eq_def]
  simp [hd]

theorem skip_incomplete (ts : List Text) : IsInvalid (skip pos b (ts.flatMap Text.raw ++ [byte '%'])) := by
  rw [skip_texts, skip.eq_def]
  exact ⟨_, _, _, rfl⟩

theorem writeText_append (escapechar : Bool) (l l' : List UInt8) :
    writeText escapechar (l ++ l') =
      ((writeText escapechar l).1 ++ (writeText (writeText escapechar l).2 l').1, (writeText (writeText escapechar l).2 l').2) := by
  induction l generalizing escapechar with
  | nil => cases escapechar <;> simp [writeText]
  | cons c l ih =>
      cases escapechar with
      | true => exact ih false
      | false => simp only [List.cons_append, writeText, ih (decide (c = byte '%'))]

-- The text is written with its percent signs halved.
theorem writeText_texts (ts : List Text) : writeText false (ts.flatMap Text.raw) = (ts.map Text.read, false) := by
  induction ts with
  | nil => rfl
  | cons t ts ih =>
      cases t with
      | byte c hc => simp [Text.raw, Text.read, writeText, hc, ih]
      | percent => simp [Text.raw, Text.read, writeText, ih]

-- At the end of the string a doubled percent sign loses its second half.
theorem writeText_dropLast (ts : List Text) :
    (writeText false ((ts ++ [Text.percent]).flatMap Text.raw).dropLast).1 = (ts ++ [Text.percent]).map Text.read := by
  have hraw : ((ts ++ [Text.percent]).flatMap Text.raw).dropLast = ts.flatMap Text.raw ++ [byte '%'] := by
    simp [Text.raw, List.dropLast_append_of_ne_nil]
  rw [hraw, writeText_append, writeText_texts]
  simp [Text.read, writeText]

theorem substring_eq {str pre mid post : List UInt8} (hstr : str = pre ++ (mid ++ post)) :
    substring str ⟨pre.length, pre.length + mid.length - 1⟩ = mid := by
  have hlength : ((pre.length + mid.length - 1 : ℤ) - pre.length + 1).toNat = mid.length := by omega
  simp [substring, hlength, hstr]

end Texts

section Main

variable {f pre : List UInt8} {b : UInt8}

theorem getLast_texts {ts : List Text} (hb : b ≠ byte '%') (h : (ts.flatMap Text.raw).getLast?.getD b = byte '%') :
    ∃ ts', ts = ts' ++ [Text.percent] := by
  rcases List.eq_nil_or_concat' ts with rfl | ⟨ts', t, rfl⟩
  · exact absurd h hb
  · cases t with
    | percent => exact ⟨ts', rfl⟩
    | byte c hc =>
        simp only [List.flatMap_append, List.flatMap_cons, List.flatMap_nil, Text.raw, List.append_nil, List.getLast?_concat,
          Option.getD_some] at h
        exact absurd h hc

-- The text behind the last specifier, as the parser cuts it out.
theorem writeText_last {ts : List Text} (hf : f = pre ++ ts.flatMap Text.raw) (hb : b ≠ byte '%') :
    (writeText false (substring f ⟨pre.length, (pre.length + (ts.flatMap Text.raw).length : ℕ) - 1 -
      (if (ts.flatMap Text.raw).getLast?.getD b = byte '%' then 1 else 0)⟩)).1 = ts.map Text.read := by
  by_cases hlast : (ts.flatMap Text.raw).getLast?.getD b = byte '%'
  · obtain ⟨ts', rfl⟩ := getLast_texts hb hlast
    have hne : (ts' ++ [Text.percent]).flatMap Text.raw ≠ [] := by simp [Text.raw]
    have hsplit : f = pre ++ (((ts' ++ [Text.percent]).flatMap Text.raw).dropLast ++
        [((ts' ++ [Text.percent]).flatMap Text.raw).getLast hne]) := by rw [List.dropLast_append_getLast hne, hf]
    have hlength : ((ts' ++ [Text.percent]).flatMap Text.raw).length = ((ts' ++ [Text.percent]).flatMap Text.raw).dropLast.length + 1 := by
      have hpos := List.length_pos_of_ne_nil hne
      rw [List.length_dropLast]
      omega
    have hstop : ((pre.length + (((ts' ++ [Text.percent]).flatMap Text.raw).dropLast.length + 1) : ℕ) : ℤ) - 1 - 1 =
        pre.length + ((ts' ++ [Text.percent]).flatMap Text.raw).dropLast.length - 1 := by omega
    rw [if_pos hlast, hlength, hstop, substring_eq hsplit]
    exact writeText_dropLast ts'
  · have hcut := substring_eq (hf.trans (by rw [List.append_nil]) : f = pre ++ (ts.flatMap Text.raw ++ []))
    rw [if_neg hlast, Int.sub_zero, Nat.cast_add, hcut, writeText_texts]

theorem percent_notMem (c : Conversion) : byte '%' ∉ c.text := by
  have hflags : byte '%' ∉ c.flags := fun h => absurd (c.flags_valid _ h) (by decide)
  have hdigits : ∀ ds : List UInt8, (∀ x ∈ ds, isDigit x) → byte '%' ∉ ds := fun ds hds h => absurd (hds _ h) (by decide)
  have hwidth : byte '%' ∉ c.width := by
    have hvalid := c.width_valid
    generalize c.width = w at hvalid
    cases hvalid with
    | none => simp
    | dynamic => decide
    | @digits d ds hd _ hds => exact hdigits (d :: ds) (by simpa [hd] using hds)
  have hprecision : byte '%' ∉ c.precision := by
    have hvalid := c.precision_valid
    generalize c.precision = p at hvalid
    cases hvalid with
    | none => simp
    | dynamic => decide
    | @digits ds hds => simpa using ⟨(by decide : byte '%' ≠ byte '.'), hdigits ds hds⟩
  have hmodifier : byte '%' ∉ c.modifier := by
    have hall : ∀ m ∈ modifiers, byte '%' ∉ m := by decide
    exact hall c.modifier c.modifier_valid
  have htype : byte '%' ≠ c.type := by
    have hall : byte '%' ∉ types := by decide
    exact fun heq => hall (heq ▸ c.type_valid)
  simp [Conversion.text, hflags, hwidth, hprecision, hmodifier, htype]

theorem text_ne_nil (c : Conversion) : c.text ≠ [] := by simp [Conversion.text]

theorem exists_cons_notMem {l : List UInt8} (rest : List UInt8) (hne : l ≠ []) (hnot : byte '%' ∉ l) :
    ∃ d rest', l ++ rest = d :: rest' ∧ d ≠ byte '%' := by
  obtain ⟨d, l, rfl⟩ := List.exists_cons_of_ne_nil hne
  exact ⟨d, l ++ rest, rfl, fun heq => hnot (by simp [heq])⟩

theorem parseText_last (fuel start : ℕ) (b : UInt8) (ts : List Text) :
    parseText (fuel + 1) start b (ts.flatMap Text.raw) = .ok ([], [⟨start, (start + (ts.flatMap Text.raw).length : ℕ) - 1 -
      (if (ts.flatMap Text.raw).getLast?.getD b = byte '%' then 1 else 0)⟩], 0) := by
  rw [parseText, skip_ends]
  rfl

theorem parseText_read (fuel start : ℕ) (b : UInt8) (ts : List Text) (c : Conversion) (rest : List UInt8) :
    ∃ spec : Spec, spec.type = c.type ∧
      parseText (fuel + 1) start b (ts.flatMap Text.raw ++ byte '%' :: (c.text ++ rest)) =
        parseText fuel (start + (ts.flatMap Text.raw).length + 1 + c.text.length) c.type rest >>= fun later =>
          .ok (spec :: later.1, ⟨start, start + (ts.flatMap Text.raw).length - 1⟩ :: later.2.1, c.stars + 1 + later.2.2) := by
  obtain ⟨d, rest', htext, hd⟩ := exists_cons_notMem rest (text_ne_nil c) (percent_notMem c)
  obtain ⟨spec, hspec, htype⟩ := parseSpec_read (start + (ts.flatMap Text.raw).length + 1 - 1) (start + (ts.flatMap Text.raw).length + 1 + 1) c htext.symm
  refine ⟨spec, htype, ?_⟩
  have hpos : start + (ts.flatMap Text.raw).length + 1 + 1 + c.text.length - 1 = start + (ts.flatMap Text.raw).length + 1 + c.text.length := by omega
  have hstop : ((start + (ts.flatMap Text.raw).length + 1 : ℕ) : ℤ) - 1 - 1 = start + (ts.flatMap Text.raw).length - 1 := by omega
  rw [hpos] at hspec
  rw [parseText, htext, skip_read start b ts hd]
  simp only [ok_bind, hspec, if_true, hstop, pure_eq_ok]

theorem flatMap_texts (ts : List Text) : (ts.map Piece.text).flatMap Piece.raw = ts.flatMap Text.raw := by
  rw [List.flatMap_map]
  rfl

theorem conversions_texts (ts : List Text) (pieces : List Piece) : conversions (ts.map Piece.text ++ pieces) = conversions pieces := by
  induction ts with
  | nil => rfl
  | cons t ts ih => exact ih

theorem exists_first (pieces : List Piece) :
    (∃ ts : List Text, pieces = ts.map Piece.text) ∨
      ∃ (ts : List Text) (c : Conversion) (later : List Piece), pieces = ts.map Piece.text ++ Piece.conversion c :: later := by
  induction pieces with
  | nil => exact .inl ⟨[], rfl⟩
  | cons piece pieces ih =>
      cases piece with
      | conversion c => exact .inr ⟨[], c, pieces, rfl⟩
      | text t =>
          rcases ih with ⟨ts, rfl⟩ | ⟨ts, c, later, rfl⟩
          · exact .inl ⟨t :: ts, rfl⟩
          · exact .inr ⟨t :: ts, c, later, rfl⟩

-- A conversion that stops in its width is read past the end of the string, whatever stands before it.
theorem parseText_ends {fuel start : ℕ} {flags : List UInt8} {c : UInt8} (hflags : ∀ x ∈ flags, isFlag x) (hc : beginsWidth c)
    (pieces : List Piece) (hfuel : (pieces.flatMap Piece.raw).length < fuel) :
    parseText fuel start b (pieces.flatMap Piece.raw ++ byte '%' :: (flags ++ [c])) = .error .BoundsError := by
  induction fuel generalizing start b pieces with
  | zero => omega
  | succ fuel ih =>
      rcases exists_first pieces with ⟨ts, rfl⟩ | ⟨ts, conv, later, rfl⟩
      · have hnot : byte '%' ∉ flags ++ [c] := by
          have hflag : byte '%' ∉ flags := fun h => absurd (hflags _ h) (by decide)
          have hne : byte '%' ≠ c := by
            rintro rfl
            exact absurd hc (by decide)
          simp [hflag, hne]
        obtain ⟨d, rest', htext, hd⟩ := exists_cons_notMem (l := flags ++ [c]) [] (by simp) hnot
        rw [List.append_nil] at htext
        rw [flatMap_texts, parseText, htext, skip_read start b ts hd]
        simp only [ok_bind, parseSpec_ends _ _ hflags hc htext.symm, error_bind]
      · have hraw : (ts.map Piece.text ++ Piece.conversion conv :: later).flatMap Piece.raw =
            ts.flatMap Text.raw ++ byte '%' :: (conv.text ++ later.flatMap Piece.raw) := by
          rw [List.flatMap_append, flatMap_texts, List.flatMap_cons]
          rfl
        have hshort : (later.flatMap Piece.raw).length < fuel := by
          rw [hraw] at hfuel
          simp only [List.length_append, List.length_cons] at hfuel
          omega
        obtain ⟨spec, -, hread⟩ := parseText_read fuel start b ts conv (later.flatMap Piece.raw ++ byte '%' :: (flags ++ [c]))
        rw [hraw, List.append_assoc, List.cons_append, List.append_assoc, hread, ih later hshort, error_bind]

theorem output_nil (f : List UInt8) (escapechar : Bool) (r : UnitRange) :
    output f escapechar [] [r] = (writeText escapechar (substring f r)).1.map .byte := by
  simp [output]

theorem map_read_texts (ts : List Text) : (ts.map Piece.text).map Piece.read = (ts.map Text.read).map .byte := by
  rw [List.map_map, List.map_map]
  rfl

-- What a part of the string was read as.
def Reads (f rest : List UInt8) (fmts : List Spec) (strs : List UnitRange) (numarguments : ℕ) : Prop :=
  ∃ pieces : List Piece, pieces.flatMap Piece.raw = rest ∧ output f false fmts strs = pieces.map Piece.read ∧
    fmts.length = (conversions pieces).length ∧
    numarguments = (conversions pieces).length + ((conversions pieces).map Conversion.stars).sum

theorem reads_last {ts : List Text} (hf : f = pre ++ ts.flatMap Text.raw) (hb : b ≠ byte '%') :
    Reads f (ts.flatMap Text.raw) [] [⟨pre.length, (pre.length + (ts.flatMap Text.raw).length : ℕ) - 1 -
      (if (ts.flatMap Text.raw).getLast?.getD b = byte '%' then 1 else 0)⟩] 0 := by
  have hnone : conversions (ts.map Piece.text) = [] := by
    have h := conversions_texts ts []
    rwa [List.append_nil] at h
  refine ⟨ts.map Piece.text, flatMap_texts ts, ?_, ?_, ?_⟩
  · rw [output_nil, writeText_last hf hb, map_read_texts]
  · rw [hnone]
    rfl
  · rw [hnone]
    rfl

theorem reads_conversion {ts : List Text} {c : Conversion} {rest : List UInt8} {spec : Spec} {fmts : List Spec} {strs : List UnitRange}
    {numarguments : ℕ} (hf : f = pre ++ (ts.flatMap Text.raw ++ byte '%' :: (c.text ++ rest))) (htype : spec.type = c.type)
    (h : Reads f rest fmts strs numarguments) :
    Reads f (ts.flatMap Text.raw ++ byte '%' :: (c.text ++ rest)) (spec :: fmts)
      (⟨pre.length, pre.length + (ts.flatMap Text.raw).length - 1⟩ :: strs) (c.stars + 1 + numarguments) := by
  obtain ⟨pieces, rfl, houtput, hlength, hstars⟩ := h
  refine ⟨ts.map Piece.text ++ Piece.conversion c :: pieces, ?_, ?_, ?_, ?_⟩
  · rw [List.flatMap_append, flatMap_texts, List.flatMap_cons]
    rfl
  · rw [List.map_append, map_read_texts, List.map_cons, ← houtput, output, substring_eq hf, writeText_texts]
    dsimp only
    rw [htype]
    rfl
  · rw [conversions_texts, conversions, List.length_cons, List.length_cons, hlength]
  · rw [conversions_texts, conversions, List.length_cons, List.map_cons, List.sum_cons, hstars]
    omega

theorem parseText_cases {fuel : ℕ} {rest : List UInt8} (hf : f = pre ++ rest) (hb : b ≠ byte '%') (hfuel : rest.length < fuel) :
    EndsInWidth rest ∨ IsInvalid (parseText fuel pre.length b rest) ∨
      ∃ fmts strs numarguments, parseText fuel pre.length b rest = .ok (fmts, strs, numarguments) ∧ Reads f rest fmts strs numarguments := by
  induction fuel generalizing pre b rest with
  | zero => omega
  | succ fuel ih =>
      obtain ⟨ts, r, rfl, rfl | rfl | ⟨d, rest, rfl, hd⟩⟩ := exists_texts rest
      · rw [List.append_nil] at hf ⊢
        exact .inr (.inr ⟨_, _, _, parseText_last fuel pre.length b ts, reads_last hf hb⟩)
      · refine .inr (.inl ?_)
        rw [parseText]
        exact isInvalid_bind (skip_incomplete pre.length b ts) _
      · rcases parseSpec_cases (pre.length + (ts.flatMap Text.raw).length + 1 - 1) (pre.length + (ts.flatMap Text.raw).length + 1 + 1) d rest with
          ⟨c, rest', htext⟩ | ⟨flags, c, htext, hflags, hc⟩ | hinvalid
        · rw [htext] at hf hfuel ⊢
          have hpre : (pre ++ ts.flatMap Text.raw ++ byte '%' :: c.text).length = pre.length + (ts.flatMap Text.raw).length + 1 + c.text.length := by
            simp only [List.length_append, List.length_cons]
            omega
          have hne : c.type ≠ byte '%' := fun heq => percent_notMem c (by simp [Conversion.text, ← heq])
          have hshort : rest'.length < fuel := by
            simp only [List.length_append, List.length_cons] at hfuel
            omega
          obtain ⟨spec, hspec, hread⟩ := parseText_read fuel pre.length b ts c rest'
          rw [hread]
          rcases ih (show f = pre ++ ts.flatMap Text.raw ++ byte '%' :: c.text ++ rest' by simp [hf]) hne hshort with
            ⟨pieces, flags, x, rfl, hflags, hx⟩ | hinvalid | ⟨fmts, strs, numarguments, hlater, hreads⟩
          · refine .inl ⟨ts.map Piece.text ++ Piece.conversion c :: pieces, flags, x, ?_, hflags, hx⟩
            rw [List.flatMap_append, flatMap_texts, List.flatMap_cons]
            simp [Piece.raw]
          · rw [hpre] at hinvalid
            exact .inr (.inl (isInvalid_bind hinvalid _))
          · rw [hpre] at hlater
            exact .inr (.inr ⟨_, _, _, by rw [hlater, ok_bind], reads_conversion hf hspec hreads⟩)
        · refine .inl ⟨ts.map Piece.text, flags, c, ?_, hflags, hc⟩
          rw [flatMap_texts, htext]
        · refine .inr (.inl ?_)
          rw [parseText, skip_read pre.length b ts hd]
          exact isInvalid_bind hinvalid _

-- A format string is read, or refused as invalid, unless it ends within the width of a conversion: there alone no test stands before
-- the next byte is taken.
theorem reads_format_iff (f : List UInt8) : ReadsFormat f ↔ ¬EndsInWidth f := by
  constructor
  · rintro h ⟨pieces, flags, c, rfl, hflags, hc⟩
    have hends : Format.new (pieces.flatMap Piece.raw ++ byte '%' :: (flags ++ [c])) = .error .BoundsError := by
      rw [Format.new, parseText_ends hflags hc pieces (by simp only [List.length_append, List.length_cons]; omega), error_bind]
    rw [ReadsFormat, hends] at h
    exact h
  · intro h
    rcases parseText_cases (List.nil_append f).symm (by decide : (0 : UInt8) ≠ byte '%') (Nat.lt_succ_self f.length) with
      hends | ⟨message, s, e, hinvalid⟩ | ⟨fmts, strs, numarguments, hread, pieces, hraw, houtput, hlength, hstars⟩
    · exact absurd hends h
    · have hnew : Format.new f = .error (.InvalidFormatStringError message s e) := by
        rw [Format.new]
        exact hinvalid ▸ rfl
      rw [ReadsFormat, hnew]
      trivial
    · have hnew : Format.new f = .ok ⟨f, strs, fmts, numarguments⟩ := by
        rw [Format.new]
        exact hread ▸ rfl
      rw [ReadsFormat, hnew]
      exact ⟨pieces, hraw, houtput, hlength, hstars⟩

theorem width_past_end : ¬ReadsFormat (bytesOf "%5") := by
  have hends : Format.new (bytesOf "%5") = .error .BoundsError := by decide
  rw [ReadsFormat, hends]
  exact id

end Main

end Joolia.Printf
