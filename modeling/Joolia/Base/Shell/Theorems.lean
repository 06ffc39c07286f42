import Joolia.Base.Shell

namespace Joolia.Shell

open Strings Fallible

variable (cat : BitVec 32 → ℕ)

section Grammar

inductive Mode
  | plain
  | single
  | double
deriving DecidableEq

-- What the characters of a command are read as. A continuation is a backslash with a line break, which ends at the index
-- `after`, and with the spaces and tabs behind it.
inductive Token
  | blank
  | quote
  | continuation (after blanks : ℕ)
  | escaped (c : Chr)
  | text (c : Chr)

def isBlank (p : ℕ × Chr) : Bool := p.2 == lit ' ' || p.2 == lit '\t'

-- LF, CR or CRLF
def lineBreak : List (ℕ × Chr) → Option (List (ℕ × Chr) × ℕ)
  | [] => none
  | [(k, b)] => if b = lit '\n' ∨ b = lit '\r' then some ([], k + 1) else none
  | (k, b) :: (k', b') :: rest =>
      if b = lit '\n' then some ((k', b') :: rest, k + 1)
      else if b = lit '\r' then
        if b' = lit '\n' then some (rest, k + 2) else some ((k', b') :: rest, k + 1)
      else none

-- A backslash outside single quotes
def afterBackslash (m : Mode) (st : List (ℕ × Chr)) : Option (Token × List (ℕ × Chr)) :=
  match lineBreak st with
  | some (rest, after) => some (.continuation after (rest.takeWhile isBlank).length, rest.dropWhile isBlank)
  | none =>
      match st with
      | [] => none
      | (_, d) :: rest =>
          if m = .double ∧ ¬(d = lit '"' ∨ d = lit '$' ∨ d = lit '\\') then some (.text (lit '\\'), st)
          else some (.escaped d, rest)

-- The token that begins with `c`, the mode after it and the characters left
def token (m : Mode) (c : Chr) (st : List (ℕ × Chr)) : Option (Token × Mode × List (ℕ × Chr)) :=
  match m with
  | .single => if c = lit '\'' then some (.quote, .plain, st) else some (.text c, .single, st)
  | .double =>
      if c = lit '"' then some (.quote, .plain, st)
      else if c = lit '\\' then (afterBackslash .double st).map fun r => (r.1, .double, r.2)
      else some (.text c, .double, st)
  | .plain =>
      if isspace cat c = true then some (.blank, .plain, st.dropWhile fun p => isspace cat p.2)
      else if c = lit '\'' then some (.quote, .single, st)
      else if c = lit '"' then some (.quote, .double, st)
      else if c = lit '\\' then (afterBackslash .plain st).map fun r => (r.1, .plain, r.2)
      else some (.text c, .plain, st)

-- A command that ends inside quotes or with a backslash cannot be read.
inductive Reads : Mode → List (ℕ × Chr) → List Token → Prop
  | nil : Reads .plain [] []
  | cons {m m' : Mode} {j : ℕ} {c : Chr} {st st' : List (ℕ × Chr)} {t : Token} {ts : List Token}
      (htoken : token cat m c st = some (t, m', st')) (hrest : Reads m' st' ts) : Reads m ((j, c) :: st) (t :: ts)

-- The words, the first of which goes on from `w`; a continuation is nothing.
def wordsOf : List Token → Option (List Chr) → List (List Chr)
  | [], w => w.toList
  | .blank :: ts, w => w.toList ++ wordsOf ts none
  | .quote :: ts, w => wordsOf ts (some (w.getD []))
  | .continuation _ _ :: ts, w => wordsOf ts w
  | .escaped c :: ts, w => wordsOf ts (some (w.getD [] ++ [c]))
  | .text c :: ts, w => wordsOf ts (some (w.getD [] ++ [c]))

-- The words of a command
def Splits (s : List Chr) (words : List (List Chr)) : Prop :=
  ∃ ts, Reads cat .plain (pairsFrom 0 (s.dropWhile (isspace cat))) ts ∧ words = wordsOf ts none

-- The characters that the tokens stand for
def chars : List Token → ℕ
  | [] => 0
  | .escaped _ :: ts => chars ts + 1
  | .text _ :: ts => chars ts + 1
  | .blank :: ts => chars ts
  | .quote :: ts => chars ts
  | .continuation _ _ :: ts => chars ts

theorem length_wordsOf (ts : List Token) (w : Option (List Chr)) : (wordsOf ts w).flatten.length = (w.getD []).length + chars ts := by
  have hword : ∀ w : Option (List Chr), w.toList.flatten.length = (w.getD []).length := by
    intro w
    cases w with
    | none => rfl
    | some x => simp
  induction ts generalizing w with
  | nil => exact hword w
  | cons t ts ih =>
      cases t with
      | blank => rw [wordsOf, List.flatten_append, List.length_append, hword, ih, chars, Option.getD_none, List.length_nil, Nat.zero_add]
      | quote => exact ih _
      | continuation after blanks => exact ih _
      | escaped c =>
          rw [wordsOf, ih, Option.getD_some, List.length_append, chars]
          exact Nat.add_right_comm _ 1 _
      | text c =>
          rw [wordsOf, ih, Option.getD_some, List.length_append, chars]
          exact Nat.add_right_comm _ 1 _

variable {cat} in
-- A command is read in one way.
theorem Reads.unique {m : Mode} {st : List (ℕ × Chr)} {ts ts' : List Token} (h : Reads cat m st ts) (h' : Reads cat m st ts') :
    ts = ts' := by
  induction h generalizing ts' with
  | nil => cases h' with | nil => rfl
  | cons htoken _ ih =>
      cases h' with
      | cons htoken' hrest' =>
          have hsame := htoken.symm.trans htoken'
          cases hsame
          rw [ih hrest']

end Grammar

section Positions

theorem csize_pos (c : Chr) : 0 < csize c := by
  rw [csize, writeChar, writeLoop]
  split_ifs <;> simp

theorem csize_newline : csize (lit '\n') = 1 := by decide

theorem csize_return : csize (lit '\r') = 1 := by decide

theorem csize_blank {p : ℕ × Chr} (h : isBlank p = true) : csize p.2 = 1 := by
  rw [isBlank, Bool.or_eq_true, beq_iff_eq, beq_iff_eq] at h
  rcases h with h | h <;> rw [h] <;> decide

theorem le_of_mem_pairsFrom {k : ℕ} {cs : List Chr} {p : ℕ × Chr} (h : p ∈ pairsFrom k cs) : k ≤ p.1 := by
  induction cs generalizing k with
  | nil => simp [pairsFrom] at h
  | cons c cs ih =>
      rw [pairsFrom, List.mem_cons] at h
      rcases h with rfl | h
      · exact Nat.le_refl k
      · have hle := ih h
        omega

theorem le_lastindex {k : ℕ} {cs : List Chr} {p : ℕ × Chr} (h : p ∈ pairsFrom k cs) : p.1 ≤ lastindex (pairsFrom k cs) := by
  induction cs generalizing k p with
  | nil => simp [pairsFrom] at h
  | cons c cs ih =>
      cases cs with
      | nil =>
          rw [pairsFrom, pairsFrom, List.mem_singleton] at h
          rw [h]
          exact Nat.le_refl k
      | cons d cs =>
          have hlast : lastindex (pairsFrom k (c :: d :: cs)) = lastindex (pairsFrom (k + csize c) (d :: cs)) := rfl
          rw [hlast]
          rw [pairsFrom, List.mem_cons] at h
          rcases h with rfl | h
          · have hnext : k + csize c ≤ lastindex (pairsFrom (k + csize c) (d :: cs)) := ih (p := (k + csize c, d)) List.mem_cons_self
            exact Nat.le_trans (Nat.le_add_right k _) hnext
          · exact ih h

-- The characters `cs` are left of the string, from the index `k` on; the string does not end with a space.
structure At (s : List (ℕ × Chr)) (k : ℕ) (cs : List Chr) : Prop where
  split : ∃ pre, s = pre ++ pairsFrom k cs ∧ ∀ p ∈ pre, p.1 < k
  inside : ∀ p ∈ s, p.1 ≤ lastindex s
  closed : ∀ c ∈ cs.getLast?, isspace cat c = false

variable {cat}

theorem At.next {s : List (ℕ × Chr)} {k : ℕ} {c : Chr} {cs : List Chr} (h : At cat s k (c :: cs)) : At cat s (k + csize c) cs := by
  obtain ⟨pre, hs, hpre⟩ := h.split
  refine ⟨⟨pre ++ [(k, c)], by rw [hs, pairsFrom, List.append_assoc]; rfl, fun p hp => ?_⟩, h.inside, fun d hd => ?_⟩
  · have hpos := csize_pos c
    rcases List.mem_append.mp hp with hp | hp
    · have := hpre p hp
      omega
    · rw [List.mem_singleton.mp hp]
      exact Nat.lt_add_of_pos_right hpos
  · cases cs with
    | nil => cases hd
    | cons e cs => exact h.closed d hd

-- Characters popped by a predicate leave a later position.
theorem At.dropWhile {s : List (ℕ × Chr)} {k : ℕ} {cs : List Chr} (h : At cat s k cs) (p : ℕ × Chr → Bool) :
    ∃ k' cs', (pairsFrom k cs).dropWhile p = pairsFrom k' cs' ∧ At cat s k' cs' ∧ cs'.length ≤ cs.length ∧
      ((∀ q, p q = true → csize q.2 = 1) → k' = k + ((pairsFrom k cs).takeWhile p).length) := by
  induction cs generalizing k with
  | nil => exact ⟨k, [], rfl, h, Nat.le_refl _, fun _ => rfl⟩
  | cons c cs ih =>
      rw [pairsFrom, List.dropWhile_cons, List.takeWhile_cons]
      by_cases hp : p (k, c) = true
      · rw [if_pos hp, if_pos hp]
        obtain ⟨k', cs', hdrop, hat, hle, hk⟩ := ih h.next
        refine ⟨k', cs', hdrop, hat, Nat.le_succ_of_le hle, fun hsize => ?_⟩
        have hone : csize c = 1 := hsize (k, c) hp
        rw [hk hsize, List.length_cons, hone]
        omega
      · rw [if_neg hp, if_neg hp]
        exact ⟨k, c :: cs, rfl, h, Nat.le_refl _, fun _ => rfl⟩

-- The spaces at a position are not the rest of the string.
theorem At.dropWhile_isspace {s : List (ℕ × Chr)} {k : ℕ} {cs : List Chr} (h : At cat s k cs) (hcs : cs ≠ []) :
    (pairsFrom k cs).dropWhile (fun p => isspace cat p.2) ≠ [] := by
  induction cs generalizing k with
  | nil => exact absurd rfl hcs
  | cons c cs ih =>
      rw [pairsFrom, List.dropWhile_cons]
      by_cases hspace : isspace cat c = true
      · rw [if_pos hspace]
        cases cs with
        | nil =>
            have hclosed := h.closed c rfl
            rw [hspace] at hclosed
            cases hclosed
        | cons d cs => exact ih h.next (List.cons_ne_nil d cs)
      · rw [if_neg hspace]
        exact List.cons_ne_nil _ _

-- The text between two indices
def text (s : List (ℕ × Chr)) (i j : ℕ) : List Chr := (s.filter fun p => decide (i ≤ p.1) && decide (p.1 < j)).map Prod.snd

theorem substring_eq_text {s : List (ℕ × Chr)} {i j : ℕ} {t : List Chr} (h : substring s i j = .ok t) : t = text s i j := by
  rw [substring] at h
  split_ifs at h with hempty hstart
  · cases h
    rw [text, List.isEmpty_iff.mp hempty]
    rfl
  · cases h
    rfl

theorem text_eq_nil {s : List (ℕ × Chr)} {i j : ℕ} (h : ∀ p ∈ s, i ≤ p.1 → j ≤ p.1) : text s i j = [] := by
  rw [text, List.map_eq_nil_iff, List.filter_eq_nil_iff]
  intro p hp hinside
  rw [Bool.and_eq_true, decide_eq_true_eq, decide_eq_true_eq] at hinside
  exact absurd (h p hp hinside.1) (Nat.not_le.mpr hinside.2)

theorem text_next {s : List (ℕ × Chr)} {k : ℕ} {c : Chr} {cs : List Chr} (h : At cat s k (c :: cs)) (i : ℕ) :
    text s i (k + csize c) = text s i k ++ if i ≤ k then [c] else [] := by
  obtain ⟨pre, hs, hpre⟩ := h.split
  have hpos := csize_pos c
  have hearly : pre.filter (fun p => decide (i ≤ p.1) && decide (p.1 < k + csize c)) =
      pre.filter fun p => decide (i ≤ p.1) && decide (p.1 < k) := by
    refine List.filter_congr fun p hp => ?_
    have := hpre p hp
    rw [decide_eq_true (show p.1 < k by omega), decide_eq_true (show p.1 < k + csize c by omega)]
  have hlate : ∀ k', k' ≤ k + csize c →
      (pairsFrom (k + csize c) cs).filter (fun p => decide (i ≤ p.1) && decide (p.1 < k')) = [] := by
    intro k' hk'
    rw [List.filter_eq_nil_iff]
    intro p hp hlt
    have := le_of_mem_pairsFrom hp
    rw [Bool.and_eq_true, decide_eq_true_eq, decide_eq_true_eq] at hlt
    omega
  rw [text, text, hs, pairsFrom, List.filter_append, List.filter_append, List.filter_cons, List.filter_cons,
    hlate _ (Nat.le_refl _), hlate k (by omega), hearly]
  by_cases hi : i ≤ k <;> simp [hi, hpos]

-- An index of a character, or the end of the string
def Begins (s : List (ℕ × Chr)) (i : ℕ) : Prop := (∃ p ∈ s, p.1 = i) ∨ ∀ p ∈ s, p.1 < i

theorem substring_of_begins {s : List (ℕ × Chr)} {i j : ℕ} (h : j ≤ i ∨ Begins s i) : substring s i j = .ok (text s i j) := by
  have hempty : text s i j = [] → substring s i j = .ok (text s i j) := by
    intro hnil
    rw [substring, hnil]
    rw [text, List.map_eq_nil_iff] at hnil
    simp [hnil]
  rcases h with hle | ⟨p, hp, hstart⟩ | hend
  · exact hempty (text_eq_nil fun p _ hi => Nat.le_trans hle hi)
  · rw [substring]
    split_ifs with hnil hany
    · rw [text, List.isEmpty_iff.mp hnil]
      rfl
    · rfl
    · refine absurd ?_ hany
      exact List.any_eq_true.mpr ⟨p, hp, beq_iff_eq.mpr hstart⟩
  · exact hempty (text_eq_nil fun p hp hi => absurd (hend p hp) (Nat.not_lt.mpr hi))

theorem At.mem {s : List (ℕ × Chr)} {k : ℕ} {c : Chr} {cs : List Chr} (h : At cat s k (c :: cs)) : (k, c) ∈ s := by
  obtain ⟨pre, hs, -⟩ := h.split
  rw [hs]
  exact List.mem_append_right pre List.mem_cons_self

theorem At.begins {s : List (ℕ × Chr)} {k : ℕ} {cs : List Chr} (h : At cat s k cs) : Begins s (nextIndex s (pairsFrom k cs)) := by
  cases cs with
  | nil => exact .inr fun p hp => Nat.lt_succ_of_le (h.inside p hp)
  | cons c cs => exact .inl ⟨(k, c), h.mem, rfl⟩

theorem At.text_nextIndex {s : List (ℕ × Chr)} {k : ℕ} {cs : List Chr} (h : At cat s k cs) :
    text s (nextIndex s (pairsFrom k cs)) k = [] := by
  cases cs with
  | nil => exact text_eq_nil fun p hp hi => absurd (h.inside p hp) (Nat.not_le.mpr hi)
  | cons c cs => exact text_eq_nil fun p _ hi => hi

theorem At.text_lastindex {s : List (ℕ × Chr)} {k : ℕ} (h : At cat s k []) (i : ℕ) : text s i (lastindex s + 1) = text s i k := by
  obtain ⟨pre, hs, hpre⟩ := h.split
  rw [pairsFrom, List.append_nil] at hs
  rw [text, text]
  congr 1
  refine List.filter_congr fun p hp => ?_
  rw [decide_eq_true (Nat.lt_succ_of_le (h.inside p hp)), decide_eq_true (hpre p (hs ▸ hp))]

end Positions

section Steps

variable {cat}

-- `nextind` of the string, once for every blank popped
def skip (str : List Chr) : ℕ → ℕ → Except ShellError ℕ
  | 0, i => .ok i
  | n + 1, i => do
      let i ← nextind 0 str i
      skip str n i

theorem skipBlanks_eq (str : List Chr) (st : List (ℕ × Chr)) (i : ℕ) :
    skipBlanks str st i = skip str (st.takeWhile isBlank).length i >>= fun j => .ok (st.dropWhile isBlank, j) := by
  induction st generalizing i with
  | nil => rfl
  | cons p st ih =>
      obtain ⟨k, c⟩ := p
      rw [skipBlanks, List.takeWhile_cons, List.dropWhile_cons]
      change (if isBlank (k, c) = true then _ else _) = _
      by_cases hblank : isBlank (k, c) = true
      · rw [if_pos hblank, if_pos hblank, if_pos hblank, List.length_cons, skip]
        cases nextind 0 str i with
        | error e => rfl
        | ok j => exact ih j
      · rw [if_neg hblank, if_neg hblank, if_neg hblank]
        rfl

theorem le_of_nextind {k : ℕ} {str : List Chr} {i j : ℕ} (h : nextind k str i = .ok j) : i + 1 ≤ j := by
  induction str generalizing k with
  | nil => cases h
  | cons c str ih =>
      rw [nextind] at h
      split_ifs at h with hi
      · cases h
        exact hi
      · exact ih h

theorem le_of_skip {str : List Chr} {n i j : ℕ} (h : skip str n i = .ok j) : i + n ≤ j := by
  induction n generalizing i with
  | zero =>
      cases h
      exact Nat.le_refl _
  | succ n ih =>
      obtain ⟨i', hi', hrest⟩ := bind_eq_ok.mp h
      have hle := le_of_nextind hi'
      have hle' := ih hrest
      omega

-- The characters of the word that is being read, up to the index `k`
def view (s : List (ℕ × Chr)) (q : ShellState) (k : ℕ) : List Chr := q.arg.flatten ++ text s q.i k

def word (s : List (ℕ × Chr)) (q : ShellState) (k : ℕ) : Option (List Chr) :=
  if view s q k ≠ [] ∨ q.wordHasSpecial = true then some (view s q k) else none

def words (q : ShellState) : List (List Chr) := q.args.map List.flatten

structure Good (q : ShellState) (m : Mode) : Prop where
  single : q.inSingleQuotes = decide (m = .single)
  double : q.inDoubleQuotes = decide (m = .double)
  nonempty : ∀ x ∈ q.arg, x ≠ []

-- What a pass does with the token of which it pops the characters
def Effect (str : List Chr) (s st : List (ℕ × Chr)) (k : ℕ) (q : ShellState) (st' : List (ℕ × Chr)) (q' : ShellState) : Token → Prop
  | .blank => words q' = words q ++ (word s q k).toList ∧ q'.arg = [] ∧ q'.wordHasSpecial = false ∧ q'.i = nextIndex s st'
  | .quote => words q' = words q ∧ q'.arg.flatten = view s q k ∧ q'.wordHasSpecial = true ∧ q'.i = nextIndex s st'
  | .continuation after blanks =>
      words q' = words q ∧ q'.arg.flatten = view s q k ∧ q'.wordHasSpecial = true ∧ skip str blanks after = .ok q'.i
  | .escaped _ => words q' = words q ∧ q'.arg.flatten = view s q k ∧ q'.wordHasSpecial = true ∧ q'.i = nextIndex s st
  | .text _ => words q' = words q ∧ q'.arg = q.arg ∧ q'.i = q.i

def consumed (s st : List (ℕ × Chr)) (k : ℕ) (q : ShellState) : ShellState :=
  { q with arg := pushNonempty q.arg (text s q.i k), i := nextIndex s st }

theorem consumeUpto_of_ok {s : List (ℕ × Chr)} (st : List (ℕ × Chr)) {k : ℕ} {q : ShellState} (h : substring s q.i k = .ok (text s q.i k)) :
    consumeUpto s st k q = .ok (consumed s st k q) := by
  rw [consumeUpto, h]
  rfl

theorem flatten_pushNonempty (list : List (List Chr)) (x : List Chr) : (pushNonempty list x).flatten = list.flatten ++ x := by
  cases x with
  | nil => exact (List.append_nil _).symm
  | cons c x => simp [pushNonempty]

theorem flatten_consumed (s st : List (ℕ × Chr)) (k : ℕ) (q : ShellState) : (consumed s st k q).arg.flatten = view s q k :=
  flatten_pushNonempty q.arg (text s q.i k)

theorem nonempty_consumed {s : List (ℕ × Chr)} (st : List (ℕ × Chr)) {k : ℕ} {q : ShellState} (h : ∀ x ∈ q.arg, x ≠ []) :
    ∀ x ∈ (consumed s st k q).arg, x ≠ [] := by
  intro x hx
  change x ∈ pushNonempty q.arg (text s q.i k) at hx
  rw [pushNonempty] at hx
  split_ifs at hx with hempty
  · exact h x hx
  · rcases List.mem_append.mp hx with hx | hx
    · exact h x hx
    · rw [List.mem_singleton.mp hx]
      exact fun hnil => hempty (List.isEmpty_iff.mpr hnil)

theorem flatten_eq_nil_iff {arg : List (List Chr)} (h : ∀ x ∈ arg, x ≠ []) : arg.flatten = [] ↔ arg = [] := by
  rw [List.flatten_eq_nil_iff]
  constructor
  · intro hnil
    cases arg with
    | nil => rfl
    | cons x arg => exact absurd (hnil x List.mem_cons_self) (h x List.mem_cons_self)
  · rintro rfl x hx
    cases hx

-- The word that ends is pushed when it has a character or had a special one.
theorem words_endWord {q : ShellState} (h : ∀ x ∈ q.arg, x ≠ []) :
    words (endWord q) = words q ++ (if q.arg.flatten ≠ [] ∨ q.wordHasSpecial = true then some q.arg.flatten else none).toList := by
  have hempty : q.arg.isEmpty = decide (q.arg.flatten = []) := by
    rw [Bool.eq_iff_iff, List.isEmpty_iff, decide_eq_true_eq]
    exact (flatten_eq_nil_iff h).symm
  rw [endWord, hempty]
  by_cases hnil : q.arg.flatten = []
  · cases hspecial : q.wordHasSpecial <;> simp [words, hnil]
  · simp [words, hnil]

theorem arg_endWord (q : ShellState) : (endWord q).arg = [] := by
  rw [endWord]
  cases hempty : q.arg.isEmpty with
  | false => rfl
  | true =>
      by_cases hspecial : q.wordHasSpecial = true
      · rw [if_pos (by rw [hspecial]; rfl)]
      · rw [if_neg (by simp [hspecial])]
        exact List.isEmpty_iff.mp hempty

theorem endWord_flags (q : ShellState) :
    (endWord q).inSingleQuotes = q.inSingleQuotes ∧ (endWord q).inDoubleQuotes = q.inDoubleQuotes := by
  rw [endWord]
  split_ifs <;> exact ⟨rfl, rfl⟩

theorem popLineBreak_of_lineBreak {s : List (ℕ × Chr)} {k after : ℕ} {b : Chr} {cs : List Chr} {rest : List (ℕ × Chr)}
    (hat : At cat s k (b :: cs)) (h : lineBreak (pairsFrom k (b :: cs)) = some (rest, after)) :
    (b == lit '\n' || b == lit '\r') = true ∧ popLineBreak b (pairsFrom (k + csize b) cs) (k + 1) = .ok (rest, after) ∧
      ∃ cs', rest = pairsFrom after cs' ∧ At cat s after cs' ∧ cs'.length ≤ cs.length := by
  have hnext := hat.next
  cases cs with
  | nil =>
      simp only [pairsFrom, lineBreak] at h
      split_ifs at h with hbreak
      cases h
      rcases hbreak with rfl | rfl
      · rw [csize_newline] at hnext
        exact ⟨rfl, rfl, [], rfl, hnext, Nat.le_refl _⟩
      · have hclosed := hat.closed (lit '\r') rfl
        have hspace : isspace cat (lit '\r') = true := rfl
        rw [hspace] at hclosed
        cases hclosed
  | cons d cs =>
      simp only [pairsFrom, lineBreak] at h
      split_ifs at h with hnewline hreturn hpair
      · cases h
        subst hnewline
        rw [csize_newline] at hnext ⊢
        exact ⟨rfl, rfl, d :: cs, rfl, hnext, Nat.le_refl _⟩
      · cases h
        subst hreturn hpair
        have hlast := hnext.next
        rw [csize_return, csize_newline] at hlast
        rw [csize_return]
        exact ⟨rfl, rfl, cs, by rw [csize_newline], hlast, Nat.le_succ _⟩
      · cases h
        subst hreturn
        rw [csize_return] at hnext ⊢
        refine ⟨rfl, ?_, d :: cs, rfl, hnext, Nat.le_refl _⟩
        rw [pairsFrom, popLineBreak, if_pos (beq_self_eq_true _), if_neg (by rwa [beq_iff_eq])]

theorem lineBreak_eq_none_iff {k : ℕ} {b : Chr} {cs : List Chr} :
    lineBreak (pairsFrom k (b :: cs)) = none ↔ ¬(b == lit '\n' || b == lit '\r') = true := by
  rw [Bool.or_eq_true, beq_iff_eq, beq_iff_eq]
  cases cs with
  | nil =>
      simp only [pairsFrom, lineBreak]
      split_ifs with hbreak <;> simp [hbreak]
  | cons d cs =>
      simp only [pairsFrom, lineBreak]
      split_ifs with hnewline hreturn <;> simp [*]

-- When the pass for a token does not fail
def Ready (str : List Chr) (s : List (ℕ × Chr)) (k : ℕ) (q : ShellState) : Token → Prop
  | .text _ => True
  | .continuation after blanks => substring s q.i k = .ok (text s q.i k) ∧ ∃ i, skip str blanks after = .ok i
  | _ => substring s q.i k = .ok (text s q.i k)

variable {str : List Chr} {s : List (ℕ × Chr)} {k : ℕ} {cs : List Chr} {q : ShellState} {m : Mode}

theorem backslash_of_ready {j : ℕ} {t : Token} {st' : List (ℕ × Chr)} (hat : At cat s k cs) (hgood : Good q m)
    (htoken : afterBackslash m (pairsFrom k cs) = some (t, st')) (hready : Ready str s j q t) :
    ∃ q', backslash str s (pairsFrom k cs) j q = .ok (st', q') ∧ Good q' m ∧ Effect str s (pairsFrom k cs) j q st' q' t := by
  cases cs with
  | nil => cases htoken
  | cons b cs =>
      rw [afterBackslash.eq_def] at htoken
      cases hbreak : lineBreak (pairsFrom k (b :: cs)) with
      | some r =>
          obtain ⟨rest, after⟩ := r
          rw [hbreak] at htoken
          cases htoken
          obtain ⟨hb, hpop, -⟩ := popLineBreak_of_lineBreak hat hbreak
          obtain ⟨hsub, i, hskip⟩ := hready
          refine ⟨{ consumed s (pairsFrom k (b :: cs)) j { q with wordHasSpecial := true } with i }, ?_,
            ⟨hgood.single, hgood.double, nonempty_consumed (pairsFrom k (b :: cs)) hgood.nonempty⟩, rfl,
            flatten_consumed _ (pairsFrom k (b :: cs)) _ _, rfl, hskip⟩
          have hconsume := consumeUpto_of_ok (pairsFrom k (b :: cs)) (q := { q with wordHasSpecial := true }) hsub
          rw [backslash.eq_def, pairsFrom]
          dsimp only
          rw [if_pos hb, ← pairsFrom, hconsume, ok_bind]
          have hplace : (consumed s (pairsFrom k (b :: cs)) j { q with wordHasSpecial := true }).i = k := rfl
          rw [hplace, hpop, ok_bind]
          dsimp only
          rw [skipBlanks_eq, hskip]
          rfl
      | none =>
          rw [hbreak] at htoken
          have hb := lineBreak_eq_none_iff.mp hbreak
          rw [backslash.eq_def, pairsFrom]
          dsimp only
          rw [if_neg hb, ← pairsFrom]
          rw [pairsFrom] at htoken
          dsimp only at htoken
          split_ifs at htoken with hkept
          · cases htoken
            refine ⟨{ q with wordHasSpecial := true }, ?_, ⟨hgood.single, hgood.double, hgood.nonempty⟩, rfl, rfl, rfl⟩
            rw [if_pos (hgood.double.trans (decide_eq_true hkept.1)), if_neg (by simpa [or_assoc] using hkept.2), pairsFrom]
          · cases htoken
            have hsub : substring s q.i j = .ok (text s q.i j) := hready
            have hconsume := consumeUpto_of_ok (pairsFrom k (b :: cs)) (q := { q with wordHasSpecial := true }) hsub
            refine ⟨consumed s (pairsFrom k (b :: cs)) j { q with wordHasSpecial := true }, ?_,
              ⟨hgood.single, hgood.double, nonempty_consumed _ hgood.nonempty⟩, rfl, flatten_consumed _ _ _ _, rfl, rfl⟩
            rw [hconsume]
            by_cases hdouble : m = .double
            · rw [if_pos (hgood.double.trans (decide_eq_true hdouble)), if_pos]
              · rfl
              · by_contra hother
                exact hkept ⟨hdouble, by simpa [or_assoc] using hother⟩
            · rw [if_neg (by rw [hgood.double]; simpa using hdouble)]
              rfl

-- The four tests of a pass, in the mode of the pass
theorem shellStep_plain (hgood : Good q .plain) (st : List (ℕ × Chr)) (c : Chr) :
    shellStep cat str s st k c q =
      if isspace cat c = true then do
        let q ← consumeUpto s st k q
        let rest := st.dropWhile fun p => isspace cat p.2
        return (rest, { endWord q with wordHasSpecial := false, i := afterSpaces st rest q.i })
      else if c = lit '\'' then do
        let q ← consumeUpto s st k { q with inSingleQuotes := true, wordHasSpecial := true }
        return (st, q)
      else if c = lit '"' then do
        let q ← consumeUpto s st k { q with inDoubleQuotes := true, wordHasSpecial := true }
        return (st, q)
      else if c = lit '\\' then backslash str s st k q
      else .ok (st, q) := by
  rw [shellStep, hgood.single, hgood.double]
  simp

theorem shellStep_single (hgood : Good q .single) (st : List (ℕ × Chr)) (c : Chr) :
    shellStep cat str s st k c q =
      if c = lit '\'' then do
        let q ← consumeUpto s st k { q with inSingleQuotes := false, wordHasSpecial := true }
        return (st, q)
      else .ok (st, q) := by
  rw [shellStep, hgood.single, hgood.double]
  simp

theorem shellStep_double (hgood : Good q .double) (st : List (ℕ × Chr)) (c : Chr) :
    shellStep cat str s st k c q =
      if c = lit '"' then do
        let q ← consumeUpto s st k { q with inDoubleQuotes := false, wordHasSpecial := true }
        return (st, q)
      else if c = lit '\\' then backslash str s st k q
      else .ok (st, q) := by
  rw [shellStep, hgood.single, hgood.double]
  simp

theorem shellStep_of_ready {c : Chr} {t : Token} {m' : Mode} {st' : List (ℕ × Chr)} (hat : At cat s k (c :: cs)) (hgood : Good q m)
    (htoken : token cat m c (pairsFrom (k + csize c) cs) = some (t, m', st')) (hready : Ready str s k q t) :
    ∃ q', shellStep cat str s (pairsFrom (k + csize c) cs) k c q = .ok (st', q') ∧ Good q' m' ∧
      Effect str s (pairsFrom (k + csize c) cs) k q st' q' t := by
  have hquote : ∀ single double, single = decide (m' = .single) → double = decide (m' = .double) →
      substring s q.i k = .ok (text s q.i k) →
      ∃ q', (do
        let q ← consumeUpto s (pairsFrom (k + csize c) cs) k
          { q with inSingleQuotes := single, inDoubleQuotes := double, wordHasSpecial := true }
        return (pairsFrom (k + csize c) cs, q)) = .ok (pairsFrom (k + csize c) cs, q') ∧ Good q' m' ∧
        Effect str s (pairsFrom (k + csize c) cs) k q (pairsFrom (k + csize c) cs) q' .quote := by
    intro single double hsingle hdouble hsub
    refine ⟨consumed s (pairsFrom (k + csize c) cs) k
      { q with inSingleQuotes := single, inDoubleQuotes := double, wordHasSpecial := true }, ?_,
      ⟨hsingle, hdouble, nonempty_consumed (pairsFrom (k + csize c) cs) hgood.nonempty⟩, rfl,
      flatten_consumed _ (pairsFrom (k + csize c) cs) _ _, rfl, rfl⟩
    rw [consumeUpto_of_ok _ (q := { q with inSingleQuotes := single, inDoubleQuotes := double, wordHasSpecial := true }) hsub]
    rfl
  have hbackslash : m' = m → afterBackslash m (pairsFrom (k + csize c) cs) = some (t, st') →
      ∃ q', backslash str s (pairsFrom (k + csize c) cs) k q = .ok (st', q') ∧ Good q' m' ∧
        Effect str s (pairsFrom (k + csize c) cs) k q st' q' t := by
    rintro rfl hafter
    exact backslash_of_ready hat.next hgood hafter hready
  cases m with
  | plain =>
      rw [shellStep_plain hgood]
      simp only [token] at htoken
      split_ifs at htoken ⊢ with hspace hsingle hdouble hslash
      · cases htoken
        have hne : cs ≠ [] := by
          rintro rfl
          have hclosed := hat.closed c rfl
          rw [hspace] at hclosed
          cases hclosed
        obtain ⟨k', cs', hrest, hat', -, -⟩ := hat.next.dropWhile fun p => isspace cat p.2
        have hleft := hat.next.dropWhile_isspace hne
        rw [hrest] at hleft ⊢
        refine ⟨{ endWord (consumed s (pairsFrom (k + csize c) cs) k q) with wordHasSpecial := false, i := k' }, ?_, ?_, ?_⟩
        · rw [consumeUpto_of_ok _ (show substring s q.i k = .ok (text s q.i k) from hready), ok_bind]
          cases cs' with
          | nil => exact absurd rfl hleft
          | cons d cs' => rfl
        · have hflags := endWord_flags (consumed s (pairsFrom (k + csize c) cs) k q)
          refine ⟨hflags.1.trans hgood.single, hflags.2.trans hgood.double, ?_⟩
          rw [show ({ endWord (consumed s (pairsFrom (k + csize c) cs) k q) with wordHasSpecial := false, i := k' } : ShellState).arg =
            [] from arg_endWord _]
          exact fun x hx => absurd hx List.not_mem_nil
        · refine ⟨?_, arg_endWord _, rfl, ?_⟩
          · have hwords := words_endWord (q := consumed s (pairsFrom (k + csize c) cs) k q)
              (nonempty_consumed (pairsFrom (k + csize c) cs) hgood.nonempty)
            rw [flatten_consumed] at hwords
            exact hwords
          · cases cs' with
            | nil => exact absurd rfl hleft
            | cons d cs' => rfl
      · cases htoken
        exact hquote true q.inDoubleQuotes rfl hgood.double hready
      · cases htoken
        exact hquote q.inSingleQuotes true hgood.single rfl hready
      · obtain ⟨r, hafter, hr⟩ := Option.map_eq_some_iff.mp htoken
        cases hr
        exact hbackslash rfl hafter
      · cases htoken
        exact ⟨q, rfl, hgood, rfl, rfl, rfl⟩
  | single =>
      rw [shellStep_single hgood]
      simp only [token] at htoken
      split_ifs at htoken ⊢ with hsingle
      · cases htoken
        exact hquote false q.inDoubleQuotes rfl hgood.double hready
      · cases htoken
        exact ⟨q, rfl, hgood, rfl, rfl, rfl⟩
  | double =>
      rw [shellStep_double hgood]
      simp only [token] at htoken
      split_ifs at htoken ⊢ with hdouble hslash
      · cases htoken
        exact hquote q.inSingleQuotes false hgood.single rfl hready
      · obtain ⟨r, hafter, hr⟩ := Option.map_eq_some_iff.mp htoken
        cases hr
        exact hbackslash rfl hafter
      · cases htoken
        exact ⟨q, rfl, hgood, rfl, rfl, rfl⟩

theorem substring_of_consume {j : ℕ} {st : List (ℕ × Chr)} {q' : ShellState} {β : Type} {f : ShellState → Except ShellError β} {r : β}
    (h : (consumeUpto s st j q' >>= f) = .ok r) : substring s q'.i j = .ok (text s q'.i j) := by
  obtain ⟨q₁, hconsume, -⟩ := bind_eq_ok.mp h
  obtain ⟨x, hsub, -⟩ := bind_eq_ok.mp hconsume
  rw [hsub, substring_eq_text hsub]

theorem ready_of_backslash {j : ℕ} {r : List (ℕ × Chr) × ShellState} (hat : At cat s k cs) (hgood : Good q m)
    (h : backslash str s (pairsFrom k cs) j q = .ok r) :
    ∃ t st', afterBackslash m (pairsFrom k cs) = some (t, st') ∧ Ready str s j q t := by
  cases cs with
  | nil =>
      rw [pairsFrom, backslash] at h
      split_ifs at h
  | cons b cs =>
      rw [backslash.eq_def, pairsFrom] at h
      dsimp only at h
      rw [afterBackslash.eq_def]
      cases hbreak : lineBreak (pairsFrom k (b :: cs)) with
      | some r' =>
          obtain ⟨rest, after⟩ := r'
          obtain ⟨hb, hpop, -⟩ := popLineBreak_of_lineBreak hat hbreak
          refine ⟨.continuation after _, _, rfl, ?_⟩
          rw [if_pos hb] at h
          have hsub := substring_of_consume h
          refine ⟨hsub, ?_⟩
          obtain ⟨q₁, hconsume, hrest⟩ := bind_eq_ok.mp h
          rw [consumeUpto_of_ok _ hsub] at hconsume
          cases hconsume
          obtain ⟨r₁, hr₁, hrest⟩ := bind_eq_ok.mp hrest
          have hsame : r₁ = (rest, after) := Except.ok.inj (hr₁.symm.trans hpop)
          subst hsame
          obtain ⟨r₂, hr₂, -⟩ := bind_eq_ok.mp hrest
          rw [skipBlanks_eq] at hr₂
          obtain ⟨i, hi, -⟩ := bind_eq_ok.mp hr₂
          exact ⟨i, hi⟩
      | none =>
          rw [if_neg (lineBreak_eq_none_iff.mp hbreak)] at h
          dsimp only [pairsFrom]
          split_ifs with hkept
          · exact ⟨.text _, _, rfl, trivial⟩
          · refine ⟨.escaped b, _, rfl, ?_⟩
            split_ifs at h with hdouble hother
            · exact (substring_of_consume h :)
            · exact absurd ⟨of_decide_eq_true (hgood.double.symm.trans hdouble), by simpa [or_assoc] using hother⟩ hkept
            · exact (substring_of_consume h :)

-- A pass that does not fail has popped a token.
theorem ready_of_shellStep {c : Chr} {r : List (ℕ × Chr) × ShellState} (hat : At cat s k (c :: cs)) (hgood : Good q m)
    (h : shellStep cat str s (pairsFrom (k + csize c) cs) k c q = .ok r) :
    ∃ t m' st', token cat m c (pairsFrom (k + csize c) cs) = some (t, m', st') ∧ Ready str s k q t := by
  cases m with
  | plain =>
      rw [shellStep_plain hgood] at h
      simp only [token]
      split_ifs at h ⊢ with hspace hsingle hdouble hslash
      · exact ⟨.blank, .plain, _, rfl, (substring_of_consume h :)⟩
      · exact ⟨.quote, .single, _, rfl, (substring_of_consume h :)⟩
      · exact ⟨.quote, .double, _, rfl, (substring_of_consume h :)⟩
      · obtain ⟨t, st', hafter, ht⟩ := ready_of_backslash hat.next hgood h
        exact ⟨t, .plain, st', by rw [hafter]; rfl, ht⟩
      · exact ⟨.text c, .plain, _, rfl, trivial⟩
  | single =>
      rw [shellStep_single hgood] at h
      simp only [token]
      split_ifs at h ⊢ with hsingle
      · exact ⟨.quote, .plain, _, rfl, (substring_of_consume h :)⟩
      · exact ⟨.text c, .single, _, rfl, trivial⟩
  | double =>
      rw [shellStep_double hgood] at h
      simp only [token]
      split_ifs at h ⊢ with hdouble hslash
      · exact ⟨.quote, .plain, _, rfl, (substring_of_consume h :)⟩
      · obtain ⟨t, st', hafter, ht⟩ := ready_of_backslash hat.next hgood h
        exact ⟨t, .double, st', by rw [hafter]; rfl, ht⟩
      · exact ⟨.text c, .double, _, rfl, trivial⟩

end Steps

section Runs

variable {cat} {str : List Chr} {s : List (ℕ × Chr)} {k k' : ℕ} {c : Chr} {cs cs' : List Chr} {q q' : ShellState} {m m' : Mode}

-- Where a token ends, that begins with `c` before the index `k`
variable (cat) in
def Placed (s : List (ℕ × Chr)) (k : ℕ) (c : Chr) (cs : List Chr) (k' : ℕ) : Token → Prop
  | .continuation after blanks =>
      ∃ cs₁, At cat s after cs₁ ∧ blanks = ((pairsFrom after cs₁).takeWhile isBlank).length ∧ k' = after + blanks
  | .escaped d => ∃ cs₁, cs = d :: cs₁ ∧ k' = k + csize d
  | .text d => d = c ∧ k' = k
  | _ => True

theorem afterBackslash_at {t : Token} {st' : List (ℕ × Chr)} (hat : At cat s k cs)
    (h : afterBackslash m (pairsFrom k cs) = some (t, st')) :
    ∃ k' cs', st' = pairsFrom k' cs' ∧ At cat s k' cs' ∧ cs'.length ≤ cs.length ∧ Placed cat s k (lit '\\') cs k' t := by
  cases cs with
  | nil => cases h
  | cons b cs =>
      rw [afterBackslash.eq_def] at h
      cases hbreak : lineBreak (pairsFrom k (b :: cs)) with
      | some r =>
          obtain ⟨rest, after⟩ := r
          rw [hbreak] at h
          cases h
          obtain ⟨-, -, cs₁, rfl, hat₁, hle₁⟩ := popLineBreak_of_lineBreak hat hbreak
          obtain ⟨k', cs', hdrop, hat', hle, hk⟩ := hat₁.dropWhile isBlank
          refine ⟨k', cs', hdrop, hat', ?_, cs₁, hat₁, rfl, hk fun q hq => csize_blank hq⟩
          exact Nat.le_trans hle (Nat.le_succ_of_le hle₁)
      | none =>
          rw [hbreak] at h
          dsimp only [pairsFrom] at h
          split_ifs at h with hkept
          · cases h
            exact ⟨k, b :: cs, rfl, hat, Nat.le_refl _, rfl, rfl⟩
          · cases h
            exact ⟨k + csize b, cs, rfl, hat.next, Nat.le_succ _, cs, rfl, rfl⟩

theorem token_at {t : Token} {st' : List (ℕ × Chr)} (hat : At cat s k (c :: cs))
    (h : token cat m c (pairsFrom (k + csize c) cs) = some (t, m', st')) :
    ∃ k' cs', st' = pairsFrom k' cs' ∧ At cat s k' cs' ∧ cs'.length ≤ cs.length ∧ Placed cat s (k + csize c) c cs k' t := by
  have hback : c = lit '\\' → (afterBackslash m (pairsFrom (k + csize c) cs)).map (fun r => (r.1, m, r.2)) = some (t, m', st') →
      ∃ k' cs', st' = pairsFrom k' cs' ∧ At cat s k' cs' ∧ cs'.length ≤ cs.length ∧ Placed cat s (k + csize c) c cs k' t := by
    intro hc hmap
    obtain ⟨r, hafter, hr⟩ := Option.map_eq_some_iff.mp hmap
    cases hr
    have hplaced := afterBackslash_at hat.next hafter
    rwa [← hc] at hplaced
  have hstay : ∀ {t : Token}, Placed cat s (k + csize c) c cs (k + csize c) t →
      ∃ k' cs', pairsFrom (k + csize c) cs = pairsFrom k' cs' ∧ At cat s k' cs' ∧ cs'.length ≤ cs.length ∧
        Placed cat s (k + csize c) c cs k' t :=
    fun hplaced => ⟨k + csize c, cs, rfl, hat.next, Nat.le_refl _, hplaced⟩
  cases m with
  | plain =>
      simp only [token] at h
      split_ifs at h with hspace hsingle hdouble hslash
      · cases h
        obtain ⟨k', cs', hdrop, hat', hle, -⟩ := hat.next.dropWhile fun p => isspace cat p.2
        exact ⟨k', cs', hdrop, hat', hle, trivial⟩
      · cases h
        exact hstay trivial
      · cases h
        exact hstay trivial
      · exact hback hslash h
      · cases h
        exact hstay ⟨rfl, rfl⟩
  | single =>
      simp only [token] at h
      split_ifs at h with hsingle
      · cases h
        exact hstay trivial
      · cases h
        exact hstay ⟨rfl, rfl⟩
  | double =>
      simp only [token] at h
      split_ifs at h with hdouble hslash
      · cases h
        exact hstay trivial
      · exact hback hslash h
      · cases h
        exact hstay ⟨rfl, rfl⟩

-- The words that the passes push: a continuation begins a word.
def codeWords : List Token → Option (List Chr) → List (List Chr)
  | [], w => w.toList
  | .blank :: ts, w => w.toList ++ codeWords ts none
  | .quote :: ts, w => codeWords ts (some (w.getD []))
  | .continuation _ _ :: ts, w => codeWords ts (some (w.getD []))
  | .escaped c :: ts, w => codeWords ts (some (w.getD [] ++ [c]))
  | .text c :: ts, w => codeWords ts (some (w.getD [] ++ [c]))

theorem word_getD (s : List (ℕ × Chr)) (q : ShellState) (k : ℕ) : (word s q k).getD [] = view s q k := by
  rw [word]
  split_ifs with hword
  · rfl
  · rw [not_or, not_not] at hword
    exact hword.1.symm

theorem length_word (s : List (ℕ × Chr)) (q : ShellState) (k : ℕ) : (word s q k).toList.flatten.length = (view s q k).length := by
  rw [← word_getD s q k]
  cases word s q k <;> simp

theorem word_of_special (h : q.wordHasSpecial = true) : word s q k = some (view s q k) := if_pos (.inr h)

theorem word_of_view {x : List Chr} {d : Chr} (h : view s q k = x ++ [d]) : word s q k = some (x ++ [d]) := by
  rw [word, h, if_pos (.inl (by simp))]

def Token.isBlank : Token → Bool
  | .blank => true
  | _ => false

-- The characters that a pass adds to the word
def gained (q : ShellState) (k : ℕ) : Token → List Chr
  | .escaped d => [d]
  | .text d => if q.i ≤ k then [d] else []
  | _ => []

section Step

variable {t : Token} (hat : At cat s k (c :: cs)) (hat' : At cat s k' cs') (hplaced : Placed cat s (k + csize c) c cs k' t)
  (heffect : Effect str s (pairsFrom (k + csize c) cs) k q (pairsFrom k' cs') q' t)

include hat hat' hplaced heffect

theorem view_step : view s q' k' = if t.isBlank = true then [] else view s q k ++ gained q k t := by
  cases t with
  | blank =>
      obtain ⟨-, harg, -, hi⟩ := heffect
      rw [view, harg, hi, hat'.text_nextIndex]
      rfl
  | quote =>
      obtain ⟨-, harg, -, hi⟩ := heffect
      rw [view, harg, hi, hat'.text_nextIndex]
      rfl
  | continuation after blanks =>
      obtain ⟨-, harg, -, hskip⟩ := heffect
      obtain ⟨-, -, -, rfl⟩ := hplaced
      rw [view, harg, text_eq_nil fun p _ hi => Nat.le_trans (le_of_skip hskip) hi]
      rfl
  | escaped d =>
      obtain ⟨-, harg, -, hi⟩ := heffect
      obtain ⟨cs₁, rfl, rfl⟩ := hplaced
      have htext := text_next hat.next (k + csize c)
      rw [if_pos (Nat.le_refl _), text_eq_nil fun p _ hp => hp, List.nil_append] at htext
      rw [view, harg, hi]
      exact congrArg (view s q k ++ ·) htext
  | text d =>
      obtain ⟨-, harg, hi⟩ := heffect
      obtain ⟨rfl, rfl⟩ := hplaced
      rw [view, harg, hi, text_next hat, ← List.append_assoc]
      rfl

-- A pass that is not beyond its character keeps the words.
theorem words_step (htext : ∀ d, t = .text d → q.i ≤ k) (ts : List Token) :
    words q' ++ codeWords ts (word s q' k') = words q ++ codeWords (t :: ts) (word s q k) := by
  have hview := view_step hat hat' hplaced heffect
  cases t with
  | blank =>
      obtain ⟨hwords, -, hspecial, -⟩ := heffect
      have hnil : view s q' k' = [] := hview
      have hnone : word s q' k' = none := if_neg (by rw [hnil, hspecial]; simp)
      rw [hwords, codeWords, List.append_assoc, hnone]
  | quote =>
      obtain ⟨hwords, -, hspecial, -⟩ := heffect
      rw [hwords, codeWords, word_getD, word_of_special hspecial, hview]
      exact congrArg (fun x => words q ++ codeWords ts (some x)) (List.append_nil _)
  | continuation after blanks =>
      obtain ⟨hwords, -, hspecial, -⟩ := heffect
      rw [hwords, codeWords, word_getD, word_of_special hspecial, hview]
      exact congrArg (fun x => words q ++ codeWords ts (some x)) (List.append_nil _)
  | escaped d =>
      obtain ⟨hwords, -, hspecial, -⟩ := heffect
      rw [hwords, codeWords, word_getD, word_of_special hspecial, hview]
      rfl
  | text d =>
      obtain ⟨hwords, -, -⟩ := heffect
      have hmore : view s q' k' = view s q k ++ [d] := hview.trans (congrArg (view s q k ++ ·) (if_pos (htext d rfl)))
      rw [hwords, codeWords, word_getD, word_of_view hmore]

-- The characters read so far
theorem length_step : (words q').flatten.length + (view s q' k').length =
    (words q).flatten.length + (view s q k).length + (gained q k t).length := by
  have hview := view_step hat hat' hplaced heffect
  cases t with
  | blank =>
      have hnil : view s q' k' = [] := hview
      rw [heffect.1, hnil, List.flatten_append, List.length_append, length_word]
      rfl
  | quote => rw [heffect.1, hview]; simp [Token.isBlank, gained]
  | continuation after blanks => rw [heffect.1, hview]; simp [Token.isBlank, gained]
  | escaped d => rw [heffect.1, hview]; simp [Token.isBlank, gained, Nat.add_assoc]
  | text d => rw [heffect.1, hview]; simp [Token.isBlank, Nat.add_assoc]

-- The next text begins with a character.
theorem begins_step (hbegins : k ≤ q.i ∨ Begins s q.i) (htext : ∀ d, t = .text d → q.i ≤ k) : k' ≤ q'.i ∨ Begins s q'.i := by
  cases t with
  | blank =>
      rw [heffect.2.2.2]
      exact .inr hat'.begins
  | quote =>
      rw [heffect.2.2.2]
      exact .inr hat'.begins
  | continuation after blanks =>
      obtain ⟨-, -, -, rfl⟩ := hplaced
      exact .inl (le_of_skip heffect.2.2.2)
  | escaped d =>
      rw [heffect.2.2.2]
      exact .inr hat.next.begins
  | text d =>
      rw [heffect.2.2]
      rcases hbegins with hle | hbegins
      · have hi : k = q.i := Nat.le_antisymm hle (htext d rfl)
        exact .inr (.inl ⟨(k, c), hat.mem, hi⟩)
      · exact .inr hbegins

end Step

def StartsText : List Token → Prop
  | .text _ :: _ => True
  | _ => False

variable (str) in
-- A continuation behind which the next text begins too late, since `nextind` was asked about the whole string
def Lossy : List Token → Prop
  | [] => False
  | .continuation after blanks :: ts => (StartsText ts ∧ skip str blanks after ≠ .ok (after + blanks)) ∨ Lossy ts
  | _ :: ts => Lossy ts

theorem lossy_of_tail {t : Token} {ts : List Token} (h : Lossy str ts) : Lossy str (t :: ts) := by
  cases t with
  | continuation after blanks => exact .inr h
  | blank => exact h
  | quote => exact h
  | escaped d => exact h
  | text d => exact h

-- Unless it is lost, the next text begins at the next character.
theorem index_step {t : Token} {ts : List Token} (hat : At cat s k (c :: cs)) (hplaced : Placed cat s (k + csize c) c cs k' t)
    (heffect : Effect str s (pairsFrom (k + csize c) cs) k q (pairsFrom k' cs') q' t) (hreads : Reads cat m' (pairsFrom k' cs') ts)
    (hlossy : ¬Lossy str (t :: ts)) (htext : ∀ d, t = .text d → q.i ≤ k) (hstarts : StartsText ts) : q'.i ≤ k' := by
  have hindex : nextIndex s (pairsFrom k' cs') = k' := by
    cases cs' with
    | nil => cases hreads; cases hstarts
    | cons d cs' => rfl
  cases t with
  | blank => exact Nat.le_of_eq (heffect.2.2.2.trans hindex)
  | quote => exact Nat.le_of_eq (heffect.2.2.2.trans hindex)
  | continuation after blanks =>
      obtain ⟨-, -, -, rfl⟩ := hplaced
      have hskip : skip str blanks after = .ok q'.i := heffect.2.2.2
      by_contra hlate
      refine hlossy (.inl ⟨hstarts, fun hexact => hlate ?_⟩)
      exact Nat.le_of_eq (Except.ok.inj (hskip.symm.trans hexact))
  | escaped d =>
      obtain ⟨cs₁, rfl, rfl⟩ := hplaced
      have hi : q'.i = k + csize c := heffect.2.2.2
      rw [hi]
      exact Nat.le_add_right _ _
  | text d =>
      obtain ⟨-, rfl⟩ := hplaced
      rw [heffect.2.2]
      exact Nat.le_trans (htext d rfl) (Nat.le_add_right k _)

theorem finish_of_begins {k : ℕ} (hat : At cat s k []) (hgood : Good q .plain) (hbegins : k ≤ q.i ∨ Begins s q.i) :
    ∃ out, finish s q = .ok out := by
  have hend : lastindex s + 1 ≤ q.i ∨ Begins s q.i := by
    rcases hbegins with hle | hbegins
    · obtain ⟨pre, hs, hpre⟩ := hat.split
      rw [pairsFrom, List.append_nil] at hs
      exact .inr (.inr fun p hp => Nat.lt_of_lt_of_le (hpre p (hs ▸ hp)) hle)
    · exact .inr hbegins
  refine ⟨(endWord { q with arg := pushNonempty q.arg (text s q.i (lastindex s + 1)) }).args, ?_⟩
  rw [finish, if_neg (by rw [hgood.single]; decide), if_neg (by rw [hgood.double]; decide), substring_of_begins hend]
  rfl

-- What is returned at the end of the string
theorem words_of_finish {k : ℕ} {out : List (List (List Chr))} (hat : At cat s k []) (hgood : Good q m) (h : finish s q = .ok out) :
    m = .plain ∧ out.map List.flatten = words q ++ (word s q k).toList := by
  rw [finish] at h
  cases m with
  | single =>
      rw [if_pos (by rw [hgood.single]; decide)] at h
      cases h
  | double =>
      rw [if_neg (by rw [hgood.single]; decide), if_pos (by rw [hgood.double]; decide)] at h
      cases h
  | plain =>
      rw [if_neg (by rw [hgood.single]; decide), if_neg (by rw [hgood.double]; decide)] at h
      obtain ⟨x, hsub, hout⟩ := bind_eq_ok.mp h
      rw [substring_eq_text hsub, hat.text_lastindex] at hout
      have hwords := words_endWord (q := { q with arg := pushNonempty q.arg (text s q.i k) })
        (nonempty_consumed (s := s) [] (k := k) hgood.nonempty)
      rw [flatten_pushNonempty] at hwords
      cases hout
      exact ⟨rfl, hwords⟩

variable (str) in
-- The whole string has the characters at indices that are `lead` later.
def Shifted (lead : ℕ) (s : List (ℕ × Chr)) : Prop := ∀ p ∈ s, (lead + p.1, p.2) ∈ pairsFrom 0 str

theorem nextind_mono {i₀ k₀ : ℕ} {cs₀ : List Chr} {i j : ℕ} (h : nextind k₀ cs₀ i = .ok j) (hle : i₀ ≤ i) :
    ∃ j₀, nextind k₀ cs₀ i₀ = .ok j₀ ∧ j₀ ≤ j := by
  induction cs₀ generalizing k₀ with
  | nil => cases h
  | cons c cs₀ ih =>
      rw [nextind] at h ⊢
      by_cases hi₀ : i₀ < k₀ + csize c
      · rw [if_pos hi₀]
        refine ⟨k₀ + csize c, rfl, ?_⟩
        by_cases hi : i < k₀ + csize c
        · rw [if_pos hi] at h
          exact Nat.le_of_eq (Except.ok.inj h)
        · rw [if_neg hi] at h
          have hlt := le_of_nextind h
          omega
      · rw [if_neg hi₀]
        rw [if_neg (by omega)] at h
        exact ih h

theorem nextind_of_mem {k₀ : ℕ} {cs₀ : List Chr} {p : ℕ × Chr} (h : p ∈ pairsFrom k₀ cs₀) :
    nextind k₀ cs₀ p.1 = .ok (p.1 + csize p.2) := by
  induction cs₀ generalizing k₀ with
  | nil => cases h
  | cons c cs₀ ih =>
      have hpos := csize_pos c
      rw [pairsFrom, List.mem_cons] at h
      rw [nextind]
      rcases h with rfl | h
      · exact if_pos (Nat.lt_add_of_pos_right hpos)
      · rw [if_neg (Nat.not_lt.mpr (le_of_mem_pairsFrom h))]
        exact ih h

-- Behind the blanks of the whole string there is a character for every blank.
theorem skip_of_shifted {lead i : ℕ} (hshift : Shifted str lead s) (hat : At cat s k cs) (hi : i ≤ lead + k) :
    ∃ j, skip str ((pairsFrom k cs).takeWhile isBlank).length i = .ok j := by
  induction cs generalizing k i with
  | nil => exact ⟨i, rfl⟩
  | cons c cs ih =>
      rw [pairsFrom, List.takeWhile_cons]
      by_cases hblank : isBlank (k, c) = true
      · rw [if_pos hblank, List.length_cons, skip]
        have hnext := nextind_of_mem (hshift (k, c) hat.mem)
        obtain ⟨j₀, hj₀, hle⟩ := nextind_mono hnext hi
        obtain ⟨j, hj⟩ := ih hat.next (Nat.le_trans hle (Nat.le_of_eq (Nat.add_assoc lead k _)))
        exact ⟨j, by rw [hj₀, ok_bind, hj]⟩
      · rw [if_neg hblank]
        exact ⟨i, rfl⟩

theorem ready_of_begins {lead : ℕ} {t : Token} (hshift : Shifted str lead s) (hplaced : Placed cat s (k + csize c) c cs k' t)
    (hbegins : k ≤ q.i ∨ Begins s q.i) : Ready str s k q t := by
  have hsub := substring_of_begins hbegins
  cases t with
  | continuation after blanks =>
      obtain ⟨cs₁, hat, rfl, -⟩ := hplaced
      exact ⟨hsub, skip_of_shifted hshift hat (Nat.le_add_left after lead)⟩
  | blank => exact hsub
  | quote => exact hsub
  | escaped d => exact hsub
  | text d => trivial

-- A run over a command that loses no text
theorem run_exact {lead : ℕ} {st : List (ℕ × Chr)} {ts : List Token} (hshift : Shifted str lead s) (hreads : Reads cat m st ts)
    (hst : st = pairsFrom k cs) (hat : At cat s k cs) (hgood : Good q m) (hbegins : k ≤ q.i ∨ Begins s q.i)
    (hindex : StartsText ts → q.i ≤ k) (hlossy : ¬Lossy str ts) {fuel : ℕ} (hfuel : cs.length ≤ fuel) :
    ∃ q' out, shellLoop cat str s fuel st q = .ok q' ∧ finish s q' = .ok out ∧
      out.map List.flatten = words q ++ codeWords ts (word s q k) := by
  induction hreads generalizing k cs q fuel with
  | nil =>
      cases cs with
      | cons c cs => cases hst
      | nil =>
          obtain ⟨out, hout⟩ := finish_of_begins hat hgood hbegins
          exact ⟨q, out, by rw [shellLoop], hout, (words_of_finish hat hgood hout).2⟩
  | @cons m m' j c st st' t ts htoken hrest ih =>
      cases cs with
      | nil => cases hst
      | cons d cs =>
          cases hst
          cases fuel with
          | zero => cases hfuel
          | succ fuel =>
              obtain ⟨k', cs', rfl, hat', hle, hplaced⟩ := token_at hat htoken
              obtain ⟨q₁, hstep, hgood', heffect⟩ := shellStep_of_ready hat hgood htoken (ready_of_begins hshift hplaced hbegins)
              have htext : ∀ d, t = .text d → q.i ≤ j := by
                rintro d rfl
                exact hindex trivial
              obtain ⟨q', out, hloop, hout, hwords⟩ := ih rfl hat' hgood' (begins_step hat hat' hplaced heffect hbegins htext)
                (index_step hat hplaced heffect hrest hlossy htext) (fun h => hlossy (lossy_of_tail h))
                (Nat.le_trans hle (Nat.le_of_succ_le_succ hfuel))
              refine ⟨q', out, ?_, hout, hwords.trans (words_step hat hat' hplaced heffect htext ts)⟩
              rw [shellLoop, hstep, ok_bind]
              exact hloop

-- A run that does not fail has read tokens.
theorem reads_of_run {fuel : ℕ} {out : List (List (List Chr))} (hat : At cat s k cs) (hgood : Good q m)
    (hloop : shellLoop cat str s fuel (pairsFrom k cs) q = .ok q') (hout : finish s q' = .ok out) :
    ∃ ts, Reads cat m (pairsFrom k cs) ts := by
  have hnil : ∀ {k : ℕ} {q : ShellState} {m : Mode} {fuel : ℕ}, At cat s k [] → Good q m →
      shellLoop cat str s fuel (pairsFrom k []) q = .ok q' → ∃ ts, Reads cat m (pairsFrom k []) ts := by
    intro k q m fuel hat hgood hloop
    rw [pairsFrom, shellLoop] at hloop
    cases hloop
    obtain ⟨rfl, -⟩ := words_of_finish hat hgood hout
    exact ⟨[], .nil⟩
  induction fuel generalizing k cs q m with
  | zero =>
      cases cs with
      | nil => exact hnil hat hgood hloop
      | cons c cs => cases hloop
  | succ fuel ih =>
      cases cs with
      | nil => exact hnil hat hgood hloop
      | cons c cs =>
          rw [pairsFrom, shellLoop] at hloop
          obtain ⟨r, hstep, hloop⟩ := bind_eq_ok.mp hloop
          obtain ⟨t, m', st', htoken, hready⟩ := ready_of_shellStep hat hgood hstep
          obtain ⟨q₁, hstep', hgood', -⟩ := shellStep_of_ready hat hgood htoken hready
          obtain ⟨k', cs', rfl, hat', -, -⟩ := token_at hat htoken
          have hsame : r = (pairsFrom k' cs', q₁) := Except.ok.inj (hstep.symm.trans hstep')
          subst hsame
          obtain ⟨ts, hreads⟩ := ih hat' hgood' hloop
          exact ⟨t :: ts, .cons htoken hreads⟩

theorem length_gained (q : ShellState) (k : ℕ) (t : Token) (ts : List Token) : chars ts + (gained q k t).length ≤ chars (t :: ts) := by
  cases t with
  | text d =>
      rw [gained, chars]
      split_ifs
      · exact Nat.le_refl _
      · exact Nat.le_succ _
  | blank => exact Nat.le_refl _
  | quote => exact Nat.le_refl _
  | continuation after blanks => exact Nat.le_refl _
  | escaped d => exact Nat.le_refl _

-- The character that is passed over is not gained.
theorem gained_of_late {t : Token} {ts : List Token} (hstarts : StartsText (t :: ts)) (hlate : k < q.i) :
    chars ts + (gained q k t).length < chars (t :: ts) := by
  cases t with
  | text d =>
      rw [gained, if_neg (Nat.not_le.mpr hlate), chars]
      exact Nat.lt_succ_self _
  | blank => cases hstarts
  | quote => cases hstarts
  | continuation after blanks => cases hstarts
  | escaped d => cases hstarts

theorem lossy_cons {t : Token} {ts : List Token} (hplaced : Placed cat s (k + csize c) c cs k' t)
    (heffect : Effect str s (pairsFrom (k + csize c) cs) k q (pairsFrom k' cs') q' t) (hlossy : Lossy str (t :: ts)) :
    (StartsText ts ∧ k' < q'.i) ∨ Lossy str ts := by
  cases t with
  | continuation after blanks =>
      obtain ⟨-, -, -, rfl⟩ := hplaced
      have hskip : skip str blanks after = .ok q'.i := heffect.2.2.2
      rcases hlossy with ⟨hstarts, hlate⟩ | hlossy
      · refine .inl ⟨hstarts, Nat.lt_of_le_of_ne (le_of_skip hskip) fun hexact => hlate ?_⟩
        rw [hskip, hexact]
      · exact .inr hlossy
  | blank => exact .inr hlossy
  | quote => exact .inr hlossy
  | escaped d => exact .inr hlossy
  | text d => exact .inr hlossy

-- No run gains a character, and one that loses text has less of them.
theorem run_rough {st : List (ℕ × Chr)} {ts : List Token} (hreads : Reads cat m st ts) (hst : st = pairsFrom k cs)
    (hat : At cat s k cs) (hgood : Good q m) {fuel : ℕ} {out : List (List (List Chr))}
    (hloop : shellLoop cat str s fuel st q = .ok q') (hout : finish s q' = .ok out) :
    (out.map List.flatten).flatten.length ≤ (words q).flatten.length + (view s q k).length + chars ts ∧
      ((StartsText ts ∧ k < q.i) ∨ Lossy str ts →
        (out.map List.flatten).flatten.length < (words q).flatten.length + (view s q k).length + chars ts) := by
  induction hreads generalizing k cs q fuel with
  | nil =>
      cases cs with
      | cons c cs => cases hst
      | nil =>
          rw [shellLoop] at hloop
          cases hloop
          obtain ⟨-, hwords⟩ := words_of_finish hat hgood hout
          rw [hwords, List.flatten_append, List.length_append, length_word]
          refine ⟨Nat.le_refl _, ?_⟩
          rintro (⟨hstarts, -⟩ | hlossy)
          · cases hstarts
          · cases hlossy
  | @cons m m' j c st st' t ts htoken hrest ih =>
      cases cs with
      | nil => cases hst
      | cons d cs =>
          cases hst
          cases fuel with
          | zero => cases hloop
          | succ fuel =>
              rw [shellLoop] at hloop
              obtain ⟨r, hstep, hloop⟩ := bind_eq_ok.mp hloop
              obtain ⟨t₁, m₁, st₁, htoken₁, hready⟩ := ready_of_shellStep hat hgood hstep
              have hsame := htoken.symm.trans htoken₁
              cases hsame
              obtain ⟨q₁, hstep', hgood', heffect⟩ := shellStep_of_ready hat hgood htoken hready
              obtain ⟨k', cs', rfl, hat', -, hplaced⟩ := token_at hat htoken
              have hsame : r = (pairsFrom k' cs', q₁) := Except.ok.inj (hstep.symm.trans hstep')
              subst hsame
              obtain ⟨hle, hlt⟩ := ih rfl hat' hgood' hloop
              have hlength := length_step hat hat' hplaced heffect
              have hgained := length_gained q j t ts
              refine ⟨by omega, ?_⟩
              rintro (⟨hstarts, hlate⟩ | hlossy)
              · have hnone := gained_of_late hstarts hlate
                omega
              · have hless := hlt (lossy_cons hplaced heffect hlossy)
                omega

end Runs

section Lone

-- Whether a word is made of nothing but continuations; `continued` and `opened` say what the word begun has.
def lone (continued opened : Bool) : List Token → Bool
  | [] => continued && !opened
  | .blank :: ts => (continued && !opened) || lone false false ts
  | .continuation _ _ :: ts => lone true opened ts
  | .quote :: ts => lone continued true ts
  | .escaped _ :: ts => lone continued true ts
  | .text _ :: ts => lone continued true ts

def begun (continued : Bool) (w : Option (List Chr)) : Option (List Chr) := if continued = true then some (w.getD []) else w

theorem begun_getD (continued : Bool) (w : Option (List Chr)) : (begun continued w).getD [] = w.getD [] := by
  cases continued <;> rfl

theorem begun_some (continued : Bool) (x : List Chr) : begun continued (some x) = some x := by
  cases continued <;> rfl

theorem toList_begun {continued : Bool} {w : Option (List Chr)} (h : (continued && !w.isSome) = false) :
    (begun continued w).toList = w.toList := by
  cases continued with
  | false => rfl
  | true =>
      cases w with
      | none => cases h
      | some x => rfl

theorem length_toList_begun (continued : Bool) (w : Option (List Chr)) :
    (begun continued w).toList.length = w.toList.length + (continued && !w.isSome).toNat := by
  cases continued <;> cases w <;> rfl

theorem codeWords_of_not_lone {ts : List Token} {continued : Bool} {w : Option (List Chr)} (h : lone continued w.isSome ts = false) :
    codeWords ts (begun continued w) = wordsOf ts w := by
  induction ts generalizing continued w with
  | nil => exact toList_begun h
  | cons t ts ih =>
      cases t with
      | blank =>
          obtain ⟨hword, hrest⟩ := Bool.or_eq_false_iff.mp h
          exact congrArg₂ (· ++ ·) (toList_begun hword) (@ih false none hrest)
      | quote =>
          have hnext := @ih continued (some (w.getD [])) h
          rw [begun_some] at hnext
          rw [codeWords, begun_getD]
          exact hnext
      | continuation after blanks =>
          have hnext := @ih true w h
          rw [codeWords, begun_getD]
          exact hnext
      | escaped c =>
          have hnext := @ih continued (some (w.getD [] ++ [c])) h
          rw [begun_some] at hnext
          rw [codeWords, begun_getD]
          exact hnext
      | text c =>
          have hnext := @ih continued (some (w.getD [] ++ [c])) h
          rw [begun_some] at hnext
          rw [codeWords, begun_getD]
          exact hnext

theorem length_codeWords (ts : List Token) (continued : Bool) (w : Option (List Chr)) :
    (wordsOf ts w).length + (lone continued w.isSome ts).toNat ≤ (codeWords ts (begun continued w)).length := by
  induction ts generalizing continued w with
  | nil => exact Nat.le_of_eq (length_toList_begun continued w).symm
  | cons t ts ih =>
      cases t with
      | blank =>
          have hnext : (wordsOf ts none).length + (lone false false ts).toNat ≤ (codeWords ts none).length := ih false none
          have hor : ((continued && !w.isSome) || lone false false ts).toNat ≤
              (continued && !w.isSome).toNat + (lone false false ts).toNat := by
            cases (continued && !w.isSome) <;> cases lone false false ts <;> decide
          rw [wordsOf, codeWords, List.length_append, List.length_append, length_toList_begun, lone]
          omega
      | quote =>
          have hnext := ih continued (some (w.getD []))
          rw [begun_some] at hnext
          rw [codeWords, begun_getD]
          exact hnext
      | continuation after blanks =>
          have hnext := ih true w
          rw [codeWords, begun_getD]
          exact hnext
      | escaped c =>
          have hnext := ih continued (some (w.getD [] ++ [c]))
          rw [begun_some] at hnext
          rw [codeWords, begun_getD]
          exact hnext
      | text c =>
          have hnext := ih continued (some (w.getD [] ++ [c]))
          rw [begun_some] at hnext
          rw [codeWords, begun_getD]
          exact hnext

end Lone

section Split

variable {cat} {str : List Chr}

theorem pairsFrom_append (k : ℕ) (cs cs' : List Chr) :
    pairsFrom k (cs ++ cs') = pairsFrom k cs ++ pairsFrom (k + (cs.map csize).sum) cs' := by
  induction cs generalizing k with
  | nil => rfl
  | cons c cs ih => rw [List.cons_append, pairsFrom, ih, pairsFrom, List.map_cons, List.sum_cons, Nat.add_assoc]; rfl

theorem mem_pairsFrom_add {k : ℕ} {cs : List Chr} {p : ℕ × Chr} (lead : ℕ) (h : p ∈ pairsFrom k cs) :
    (lead + p.1, p.2) ∈ pairsFrom (lead + k) cs := by
  induction cs generalizing k with
  | nil => cases h
  | cons c cs ih =>
      rw [pairsFrom, List.mem_cons] at h ⊢
      rcases h with rfl | h
      · exact .inl rfl
      · have hmem := ih h
        rw [← Nat.add_assoc] at hmem
        exact .inr hmem

variable (cat) in
theorem shifted_of_lstrip (str : List Chr) : ∃ lead, Shifted str lead (pairsFrom 0 (str.dropWhile (isspace cat))) := by
  refine ⟨((str.takeWhile (isspace cat)).map csize).sum, fun p hp => ?_⟩
  have hmem := mem_pairsFrom_add ((str.takeWhile (isspace cat)).map csize).sum hp
  have hsplit := pairsFrom_append 0 (str.takeWhile (isspace cat)) (str.dropWhile (isspace cat))
  rw [List.takeWhile_append_dropWhile] at hsplit
  rw [hsplit, Nat.zero_add]
  exact List.mem_append_right _ hmem

theorem view_start (s : List (ℕ × Chr)) : view s ⟨0, [], [], false, false, false⟩ 0 = [] :=
  text_eq_nil fun _ _ hi => hi

theorem word_start (s : List (ℕ × Chr)) : word s ⟨0, [], [], false, false, false⟩ 0 = none := by
  rw [word, view_start]
  rfl

variable (hlast : ∀ c ∈ str.getLast?, isspace cat c = false)

include hlast

theorem closed_of_lstrip : ∀ c ∈ (str.dropWhile (isspace cat)).getLast?, isspace cat c = false := by
  intro c hc
  apply hlast c
  rw [← List.takeWhile_append_dropWhile (p := isspace cat) (l := str), List.getLast?_append, hc]
  rfl

-- A string that does not end with a space is only stripped in front.
theorem shellParse_eq : shellParse cat str =
    if (str.dropWhile (isspace cat)).isEmpty then .ok []
    else
      shellLoop cat str (pairsFrom 0 (str.dropWhile (isspace cat))) (str.dropWhile (isspace cat)).length
        (pairsFrom 0 (str.dropWhile (isspace cat))) ⟨0, [], [], false, false, false⟩ >>=
        finish (pairsFrom 0 (str.dropWhile (isspace cat))) := by
  have hstrip : (rstripShell cat (str.dropWhile (isspace cat)).reverse none).reverse = str.dropWhile (isspace cat) := by
    have hclosed := closed_of_lstrip hlast
    rw [← List.head?_reverse] at hclosed
    cases hrev : (str.dropWhile (isspace cat)).reverse with
    | nil =>
        rw [rstripShell, ← hrev, List.reverse_reverse]
    | cons c rest =>
        rw [hrev] at hclosed
        rw [rstripShell, if_neg (by simp), if_neg (by rw [hclosed c rfl]; decide), ← hrev, List.reverse_reverse]
  rw [shellParse, hstrip]

theorem at_start : At cat (pairsFrom 0 (str.dropWhile (isspace cat))) 0 (str.dropWhile (isspace cat)) :=
  ⟨⟨[], rfl, fun _ hp => absurd hp List.not_mem_nil⟩, fun _ hp => le_lastindex hp, closed_of_lstrip hlast⟩

-- The words of a command that loses no text
theorem shellSplit_of_reads {ts : List Token} (hreads : Reads cat .plain (pairsFrom 0 (str.dropWhile (isspace cat))) ts)
    (hlossy : ¬Lossy str ts) : shellSplit cat str = .ok (codeWords ts none) := by
  rw [shellSplit, shellParse_eq hlast]
  cases hempty : (str.dropWhile (isspace cat)).isEmpty with
  | true =>
      rw [List.isEmpty_iff.mp hempty, pairsFrom] at hreads
      cases hreads
      rfl
  | false =>
      obtain ⟨lead, hshift⟩ := shifted_of_lstrip cat str
      obtain ⟨q, out, hloop, hout, hwords⟩ := run_exact (q := ⟨0, [], [], false, false, false⟩) hshift hreads rfl (at_start hlast)
        ⟨rfl, rfl, fun _ hx => absurd hx List.not_mem_nil⟩ (.inl (Nat.le_refl 0)) (fun _ => Nat.le_refl 0) hlossy (Nat.le_refl _)
      rw [if_neg (by decide), hloop, ok_bind, hout, ok_bind, hwords, word_start]
      rfl

-- A command that is split is read as tokens, and loses no character only if it loses no text.
theorem reads_of_shellSplit {ws : List (List Chr)} (h : shellSplit cat str = .ok ws) :
    ∃ ts, Reads cat .plain (pairsFrom 0 (str.dropWhile (isspace cat))) ts ∧ (Lossy str ts → ws.flatten.length < chars ts) := by
  rw [shellSplit, shellParse_eq hlast] at h
  obtain ⟨parsed, hparsed, hws⟩ := bind_eq_ok.mp h
  cases hws
  cases hempty : (str.dropWhile (isspace cat)).isEmpty with
  | true =>
      rw [List.isEmpty_iff.mp hempty, pairsFrom]
      exact ⟨[], .nil, fun hlossy => hlossy.elim⟩
  | false =>
      rw [hempty, if_neg (by decide)] at hparsed
      obtain ⟨q, hloop, hout⟩ := bind_eq_ok.mp hparsed
      have hgood : Good ⟨0, [], [], false, false, false⟩ .plain := ⟨rfl, rfl, fun _ hx => absurd hx List.not_mem_nil⟩
      obtain ⟨ts, hreads⟩ := reads_of_run (at_start hlast) hgood hloop hout
      refine ⟨ts, hreads, fun hlossy => ?_⟩
      have hless := (run_rough hreads rfl (at_start hlast) hgood hloop hout).2 (.inr hlossy)
      rw [view_start, List.length_nil, Nat.add_zero] at hless
      exact Nat.lt_of_lt_of_eq hless (Nat.zero_add _)

omit hlast in
theorem splits_iff {ts : List Token} (hreads : Reads cat .plain (pairsFrom 0 (str.dropWhile (isspace cat))) ts)
    (ws : List (List Chr)) : Splits cat str ws ↔ ws = wordsOf ts none := by
  constructor
  · rintro ⟨ts', hreads', rfl⟩
    rw [hreads'.unique hreads]
  · rintro rfl
    exact ⟨ts, hreads, rfl⟩

end Split

-- Splitting follows the grammar of quotes unless text behind a continuation is lost or a word of nothing but continuations
-- is added.
theorem shellSplit_splits_iff (str : List Chr) (hlast : ∀ c ∈ str.getLast?, isspace cat c = false) :
    (∀ ws, shellSplit cat str = .ok ws ↔ Splits cat str ws) ↔
      ∀ ts, Reads cat .plain (pairsFrom 0 (str.dropWhile (isspace cat))) ts → ¬Lossy str ts ∧ lone false false ts = false := by
  constructor
  · intro hsplit ts hreads
    have hok : shellSplit cat str = .ok (wordsOf ts none) := (hsplit _).mpr ⟨ts, hreads, rfl⟩
    have hlossy : ¬Lossy str ts := by
      intro hlossy
      obtain ⟨ts', hreads', hless⟩ := reads_of_shellSplit hlast hok
      rw [hreads'.unique hreads, length_wordsOf] at hless
      have hlt := hless hlossy
      rw [Option.getD_none, List.length_nil, Nat.zero_add] at hlt
      exact Nat.lt_irrefl _ hlt
    refine ⟨hlossy, ?_⟩
    have hcode : codeWords ts none = wordsOf ts none := Except.ok.inj ((shellSplit_of_reads hlast hreads hlossy).symm.trans hok)
    have hlength : (wordsOf ts none).length + (lone false false ts).toNat ≤ (codeWords ts none).length := length_codeWords ts false none
    rw [hcode] at hlength
    cases hlone : lone false false ts with
    | false => rfl
    | true =>
        rw [hlone] at hlength
        exact absurd hlength (Nat.not_succ_le_self _)
  · intro hkept ws
    constructor
    · intro hok
      obtain ⟨ts, hreads, -⟩ := reads_of_shellSplit hlast hok
      obtain ⟨hlossy, hlone⟩ := hkept ts hreads
      have hcode : codeWords ts none = wordsOf ts none := @codeWords_of_not_lone ts false none hlone
      rw [shellSplit_of_reads hlast hreads hlossy, hcode] at hok
      exact (splits_iff hreads ws).mpr (Except.ok.inj hok).symm
    · rintro ⟨ts, hreads, rfl⟩
      obtain ⟨hlossy, hlone⟩ := hkept ts hreads
      have hcode : codeWords ts none = wordsOf ts none := @codeWords_of_not_lone ts false none hlone
      rw [shellSplit_of_reads hlast hreads hlossy, hcode]

theorem shellSplit_splits_iff_quoted :
    (∀ ws, shellSplit (fun _ => 2) [lit '\'', lit 'a', lit '\''] = .ok ws ↔ Splits (fun _ => 2) [lit '\'', lit 'a', lit '\''] ws) ↔
      ∀ ts, Reads (fun _ => 2) .plain (pairsFrom 0 ([lit '\'', lit 'a', lit '\''].dropWhile (isspace fun _ => 2))) ts →
        ¬Lossy [lit '\'', lit 'a', lit '\''] ts ∧ lone false false ts = false :=
  shellSplit_splits_iff (fun _ => 2) [lit '\'', lit 'a', lit '\''] (by rintro _ ⟨⟩; decide)

set_option maxRecDepth 4000 in
-- Behind four spaces and `é`, the `b` after a continuation and a space is lost.
theorem shellSplit_loses_b :
    (∀ c ∈ ([lit ' ', lit ' ', lit ' ', lit ' ', 0xc3a90000, lit '\\', lit '\n', lit ' ', lit 'b', lit 'c', lit 'd']).getLast?,
        isspace (fun _ => 2) c = false) ∧
      shellSplit (fun _ => 2) [lit ' ', lit ' ', lit ' ', lit ' ', 0xc3a90000, lit '\\', lit '\n', lit ' ', lit 'b', lit 'c', lit 'd'] =
        .ok [[0xc3a90000, lit 'c', lit 'd']] ∧
      Splits (fun _ => 2) [lit ' ', lit ' ', lit ' ', lit ' ', 0xc3a90000, lit '\\', lit '\n', lit ' ', lit 'b', lit 'c', lit 'd']
        [[0xc3a90000, lit 'b', lit 'c', lit 'd']] := by
  refine ⟨by rintro _ ⟨⟩; decide, by decide, ?_⟩
  exact ⟨_, .cons rfl (.cons rfl (.cons rfl (.cons rfl (.cons rfl .nil)))), rfl⟩

end Joolia.Shell
