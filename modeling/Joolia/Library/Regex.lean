import Mathlib.Computability.Language

-- Regular expressions as a backtracking engine matches them: every expression gives the list of its
-- matches at a point, in the order in which the engine tries them.
inductive Regex
  | chars (p : Char → Bool)
  | eps
  | seq (a b : Regex)
  | alt (a b : Regex)
  | star (a : Regex)
  | group (k : ℕ) (a : Regex)
  | start
  | stop

namespace Regex

-- How far a match has come: the position, what follows it, and the groups set so far.
structure Point where
  pos : ℕ
  rest : List Char
  groups : List (ℕ × List Char)

def opt (a : Regex) : Regex := alt a eps

def plus (a : Regex) : Regex := seq a (star a)

-- `*`: one more pass as long as passes consume something.
def loop (f : Point → List Point) : ℕ → Point → List Point
  | 0, s => [s]
  | fuel + 1, s => (f s).flatMap (fun t => if t.rest.length < s.rest.length then loop f fuel t else [t]) ++ [s]

def run : Regex → Point → List Point
  | chars p, s =>
      match s.rest with
      | [] => []
      | c :: rest => if p c then [⟨s.pos + 1, rest, s.groups⟩] else []
  | eps, s => [s]
  | seq a b, s => (run a s).flatMap (run b)
  | alt a b, s => run a s ++ run b s
  | star a, s => loop (run a) s.rest.length s
  | group k a, s =>
      (run a s).map fun t => { t with groups := (k, s.rest.take (s.rest.length - t.rest.length)) :: t.groups }
  | start, s => if s.pos = 0 then [s] else []
  -- the end of the text, or a newline that ends it
  | stop, s => if s.rest = [] ∨ s.rest = ['\n'] then [s] else []

-- The search: the first match at the first position that has one.
def find (r : Regex) (text : List Char) : Option Point :=
  text.tails.zipIdx.findSome? fun (rest, pos) => (run r ⟨pos, rest, []⟩).head?

def occursin (r : Regex) (text : List Char) : Bool := (find r text).isSome

-- What a group matched.
def Point.captured (t : Point) (k : ℕ) : Option (List Char) := t.groups.lookup k

-- An expression without groups and assertions.
def Plain : Regex → Prop
  | chars _ => True
  | eps => True
  | seq a b => Plain a ∧ Plain b
  | alt a b => Plain a ∧ Plain b
  | star a => Plain a
  | _ => False

-- The words such an expression stands for.
def lang : Regex → Language Char
  | chars p => {w | ∃ c, p c = true ∧ w = [c]}
  | eps => 1
  | seq a b => lang a * lang b
  | alt a b => lang a + lang b
  | star a => KStar.kstar (lang a)
  | _ => 0

-- All its letters satisfy `q`.
def Over (q : Char → Prop) : Regex → Prop
  | chars p => ∀ c, p c = true → q c
  | eps => True
  | seq a b => Over q a ∧ Over q b
  | alt a b => Over q a ∧ Over q b
  | star a => Over q a
  | _ => True

-- The point behind a word.
def Reaches (L : Language Char) (s t : Point) : Prop :=
  ∃ w ∈ L, s.rest = w ++ t.rest ∧ t.pos = s.pos + w.length ∧ t.groups = s.groups

section Plain

attribute [local simp] run loop

theorem reaches_seq {L M : Language Char} {s u : Point} :
    Reaches (L * M) s u ↔ ∃ t, Reaches L s t ∧ Reaches M t u := by
  constructor
  · rintro ⟨w, hw, hrest, hpos, hgroups⟩
    obtain ⟨x, hx, y, hy, rfl⟩ := Language.mem_mul.mp hw
    refine ⟨⟨s.pos + x.length, y ++ u.rest, s.groups⟩, ⟨x, hx, ?_, rfl, rfl⟩, ⟨y, hy, rfl, ?_, hgroups⟩⟩
    · rw [hrest, List.append_assoc]
    · rw [hpos, List.length_append, Nat.add_assoc]
  · rintro ⟨t, ⟨x, hx, hxrest, hxpos, hxgroups⟩, ⟨y, hy, hyrest, hypos, hygroups⟩⟩
    refine ⟨x ++ y, Language.mem_mul.mpr ⟨x, hx, y, hy, rfl⟩, ?_, ?_, ?_⟩
    · rw [hxrest, hyrest, List.append_assoc]
    · rw [hypos, hxpos, List.length_append, Nat.add_assoc]
    · rw [hygroups, hxgroups]

theorem reaches_nil {L : Language Char} (h : [] ∈ L) (s : Point) : Reaches L s s := ⟨[], h, rfl, rfl, rfl⟩

theorem reaches_mono {L M : Language Char} (h : ∀ w ∈ L, w ∈ M) {s t : Point} (hst : Reaches L s t) :
    Reaches M s t := by
  obtain ⟨w, hw, hrest⟩ := hst
  exact ⟨w, h w hw, hrest⟩

theorem eq_of_reaches_nil {s t : Point} (hrest : s.rest = t.rest) (hpos : t.pos = s.pos)
    (hgroups : t.groups = s.groups) : t = s := by
  cases s
  cases t
  simp_all

-- Repetitions: every pass but an empty one makes the rest shorter.
theorem mem_loop {f : Point → List Point} {L : Language Char} (hf : ∀ s t, t ∈ f s ↔ Reaches L s t) (fuel : ℕ)
    {s t : Point} (hfuel : s.rest.length ≤ fuel) : t ∈ loop f fuel s ↔ Reaches (KStar.kstar L) s t := by
  have hnil : [] ∈ KStar.kstar L := Language.nil_mem_kstar L
  have hone : ∀ w ∈ L, w ∈ KStar.kstar L := fun w hw => le_kstar (a := L) hw
  have hstep : ∀ w ∈ L * KStar.kstar L, w ∈ KStar.kstar L := fun w hw => mul_kstar_le_kstar (a := L) hw
  induction fuel generalizing s with
  | zero =>
      rw [loop, List.mem_singleton]
      constructor
      · rintro rfl
        exact reaches_nil hnil t
      · rintro ⟨w, -, hrest, hpos, hgroups⟩
        have hempty : s.rest = [] := List.length_eq_zero_iff.mp (by omega)
        rw [hempty, eq_comm, List.append_eq_nil_iff] at hrest
        obtain ⟨rfl, htrest⟩ := hrest
        exact eq_of_reaches_nil (hempty.trans htrest.symm) hpos hgroups
  | succ fuel ih =>
      rw [loop, List.mem_append, List.mem_flatMap, List.mem_singleton]
      constructor
      · rintro (⟨u, hu, ht⟩ | rfl)
        · have hsu := (hf s u).mp hu
          split_ifs at ht with hshort
          · exact reaches_mono hstep (reaches_seq.mpr ⟨u, hsu, (ih (by omega)).mp ht⟩)
          · rw [List.mem_singleton.mp ht]
            exact reaches_mono hone hsu
        · exact reaches_nil hnil t
      · rintro ⟨w, hw, hrest, hpos, hgroups⟩
        obtain ⟨pieces, rfl, hpieces⟩ := Language.mem_kstar_iff_exists_nonempty.mp hw
        cases pieces with
        | nil => exact .inr (eq_of_reaches_nil hrest hpos hgroups)
        | cons y pieces =>
            obtain ⟨hy, hne⟩ := hpieces y (by simp)
            have hylen : 0 < y.length := List.length_pos_iff.mpr hne
            rw [List.flatten_cons, List.append_assoc] at hrest
            have hlen : s.rest.length = y.length + (pieces.flatten ++ t.rest).length := by
              rw [hrest, List.length_append]
            refine .inl ⟨⟨s.pos + y.length, pieces.flatten ++ t.rest, s.groups⟩, (hf _ _).mpr ⟨y, hy, hrest, rfl, rfl⟩, ?_⟩
            rw [if_pos (by dsimp only; omega)]
            refine (ih (by dsimp only; omega)).mpr ⟨pieces.flatten, ?_, rfl, ?_, hgroups⟩
            · exact Language.mem_kstar.mpr ⟨pieces, rfl, fun z hz => (hpieces z (by simp [hz])).1⟩
            · rw [hpos, List.flatten_cons, List.length_append, Nat.add_assoc]

theorem mem_run_chars {p : Char → Bool} {s t : Point} :
    t ∈ run (chars p) s ↔ ∃ c, p c = true ∧ s.rest = c :: t.rest ∧ t.pos = s.pos + 1 ∧ t.groups = s.groups := by
  rw [run]
  cases hrest : s.rest with
  | nil => simp
  | cons c rest =>
      dsimp only
      by_cases hp : p c = true
      · rw [if_pos hp, List.mem_singleton]
        constructor
        · rintro rfl
          exact ⟨c, hp, rfl, rfl, rfl⟩
        · rintro ⟨d, -, heq, hpos, hgroups⟩
          obtain ⟨rfl, rfl⟩ := List.cons.inj heq
          cases t
          simp_all
      · rw [if_neg hp]
        constructor
        · intro h
          simp at h
        · rintro ⟨d, hd, heq, -⟩
          rw [(List.cons.inj heq).1] at hp
          exact absurd hd hp

-- The matches of a plain expression are the words of its language.
theorem mem_run_iff {r : Regex} (h : Plain r) (s t : Point) : t ∈ run r s ↔ Reaches (lang r) s t := by
  induction r generalizing s t with
  | chars p =>
      rw [mem_run_chars]
      constructor
      · rintro ⟨c, hc, hrest, hpos, hgroups⟩
        exact ⟨[c], ⟨c, hc, rfl⟩, hrest, hpos, hgroups⟩
      · rintro ⟨w, ⟨c, hc, rfl⟩, hrest, hpos, hgroups⟩
        exact ⟨c, hc, hrest, hpos, hgroups⟩
  | eps =>
      rw [run, List.mem_singleton]
      constructor
      · rintro rfl
        exact reaches_nil Language.nil_mem_one t
      · rintro ⟨w, rfl, hrest, hpos, hgroups⟩
        exact eq_of_reaches_nil hrest hpos hgroups
  | seq a b iha ihb =>
      obtain ⟨ha, hb⟩ := h
      simp only [run, List.mem_flatMap]
      exact (exists_congr fun u => and_congr (iha ha s u) (ihb hb u t)).trans reaches_seq.symm
  | alt a b iha ihb =>
      obtain ⟨ha, hb⟩ := h
      simp only [run, List.mem_append]
      rw [iha ha, ihb hb]
      constructor
      · rintro (h | h)
        · exact reaches_mono (fun w hw => Or.inl hw) h
        · exact reaches_mono (fun w hw => Or.inr hw) h
      · rintro ⟨w, hw | hw, hrest⟩
        · exact .inl ⟨w, hw, hrest⟩
        · exact .inr ⟨w, hw, hrest⟩
  | star a iha => exact mem_loop (fun s t => iha h s t) _ (Nat.le_refl _)
  | group k a iha => exact absurd h id
  | start => exact absurd h id
  | stop => exact absurd h id

-- The letters of the words.
theorem forall_of_mem_lang {q : Char → Prop} {r : Regex} (h : Over q r) {w : List Char} (hw : w ∈ lang r) :
    ∀ c ∈ w, q c := by
  induction r generalizing w with
  | chars p =>
      obtain ⟨d, hd, rfl⟩ := hw
      intro c hc
      rw [List.mem_singleton.mp hc]
      exact h d hd
  | eps =>
      obtain rfl : w = [] := hw
      simp
  | seq a b iha ihb =>
      obtain ⟨x, hx, y, hy, rfl⟩ := Language.mem_mul.mp hw
      intro c hc
      rcases List.mem_append.mp hc with hc | hc
      · exact iha h.1 hx c hc
      · exact ihb h.2 hy c hc
  | alt a b iha ihb =>
      rcases hw with hw | hw
      · exact iha h.1 hw
      · exact ihb h.2 hw
  | star a iha =>
      obtain ⟨pieces, rfl, hpieces⟩ := Language.mem_kstar.mp hw
      intro c hc
      obtain ⟨y, hy, hcy⟩ := List.mem_flatten.mp hc
      exact iha h (hpieces y hy) c hcy
  | group k a iha => exact absurd hw (Language.notMem_zero w)
  | start => exact absurd hw (Language.notMem_zero w)
  | stop => exact absurd hw (Language.notMem_zero w)

theorem mem_lang_star_chars {p : Char → Bool} {w : List Char} :
    w ∈ lang (star (chars p)) ↔ ∀ c ∈ w, p c = true := by
  constructor
  · intro h
    have hover : Over (fun c => p c = true) (star (chars p)) := fun c hc => hc
    exact forall_of_mem_lang hover h
  · intro h
    refine Language.mem_kstar.mpr ⟨w.map fun c => [c], ?_, ?_⟩
    · induction w with
      | nil => rfl
      | cons c w ih =>
          rw [List.map_cons, List.flatten_cons, ← ih fun d hd => h d (by simp [hd])]
          rfl
    · intro y hy
      obtain ⟨c, hc, rfl⟩ := List.mem_map.mp hy
      exact ⟨c, h c hc, rfl⟩

theorem mem_lang_plus_chars {p : Char → Bool} {w : List Char} :
    w ∈ lang (plus (chars p)) ↔ w ≠ [] ∧ ∀ c ∈ w, p c = true := by
  constructor
  · intro h
    have hover : Over (fun c => p c = true) (plus (chars p)) := ⟨fun c hc => hc, fun c hc => hc⟩
    refine ⟨?_, forall_of_mem_lang hover h⟩
    obtain ⟨x, ⟨c, -, rfl⟩, y, -, rfl⟩ := Language.mem_mul.mp h
    simp
  · rintro ⟨hne, hall⟩
    obtain ⟨c, w, rfl⟩ := List.exists_cons_of_ne_nil hne
    refine Language.mem_mul.mpr ⟨[c], ⟨c, hall c (by simp), rfl⟩, w, ?_, rfl⟩
    exact mem_lang_star_chars.mpr fun d hd => hall d (by simp [hd])

end Plain

section Matches

variable {a b : Regex} {s t : Point}

theorem mem_run_seq : t ∈ run (seq a b) s ↔ ∃ u ∈ run a s, t ∈ run b u := by
  simp only [run, List.mem_flatMap]

theorem mem_run_alt : t ∈ run (alt a b) s ↔ t ∈ run a s ∨ t ∈ run b s := by
  simp only [run, List.mem_append]

theorem mem_run_opt : t ∈ run (opt a) s ↔ t ∈ run a s ∨ t = s := by
  rw [opt, mem_run_alt]
  simp only [run, List.mem_singleton]

theorem mem_run_group {k : ℕ} (h : Plain a) : t ∈ run (group k a) s ↔
    ∃ w ∈ lang a, s.rest = w ++ t.rest ∧ t.pos = s.pos + w.length ∧ t.groups = (k, w) :: s.groups := by
  simp only [run, List.mem_map]
  constructor
  · rintro ⟨u, hu, rfl⟩
    obtain ⟨w, hw, hrest, hpos, hgroups⟩ := (mem_run_iff h s u).mp hu
    refine ⟨w, hw, hrest, hpos, ?_⟩
    dsimp only
    rw [hgroups, hrest, List.length_append, Nat.add_sub_cancel, List.take_left]
  · rintro ⟨w, hw, hrest, hpos, hgroups⟩
    refine ⟨⟨s.pos + w.length, t.rest, s.groups⟩, (mem_run_iff h _ _).mpr ⟨w, hw, hrest, rfl, rfl⟩, ?_⟩
    cases t
    simp_all

theorem mem_run_stop : t ∈ run stop s ↔ t = s ∧ (s.rest = [] ∨ s.rest = ['\n']) := by
  rw [run]
  split_ifs with h
  · simp [h]
  · simp [h]

-- An expression that begins with `^` is tried at the first position only.
theorem find_start (r : Regex) (text : List Char) : find (seq start r) text = (run r ⟨0, text, []⟩).head? := by
  have hzero : ∀ rest, run (seq start r) ⟨0, rest, []⟩ = run r ⟨0, rest, []⟩ := by
    intro rest
    simp [run]
  have hlater : ∀ (l : List (List Char)) (k : ℕ), (l.zipIdx (k + 1)).findSome?
      (fun (rest, pos) => (run (seq start r) ⟨pos, rest, []⟩).head?) = none := by
    intro l k
    rw [List.findSome?_eq_none_iff]
    rintro ⟨rest, pos⟩ hmem
    have := List.le_snd_of_mem_zipIdx hmem
    have hpos : pos ≠ 0 := by
      dsimp only at this
      omega
    simp [run, hpos]
  rw [find]
  obtain ⟨l, hl⟩ : ∃ l, text.tails = text :: l := by
    cases text with
    | nil => exact ⟨[], rfl⟩
    | cons c text => exact ⟨text.tails, rfl⟩
  rw [hl, List.zipIdx_cons, List.findSome?_cons]
  dsimp only
  rw [hzero]
  cases hhead : (run r ⟨0, text, []⟩).head? with
  | some t => rfl
  | none => exact hlater l 0

-- When all matches agree, the first one does.
theorem find_eq_some {r : Regex} {text : List Char} {P : Point → Prop} (hall : ∀ t ∈ run r ⟨0, text, []⟩, P t)
    (hsome : ∃ t, t ∈ run r ⟨0, text, []⟩) : ∃ t, find (seq start r) text = some t ∧ P t := by
  obtain ⟨t, ht⟩ := hsome
  rw [find_start]
  cases hrun : run r ⟨0, text, []⟩ with
  | nil => simp [hrun] at ht
  | cons u l => exact ⟨u, rfl, hall u (by simp [hrun])⟩

theorem mem_of_find {r : Regex} {text : List Char} (h : find (seq start r) text = some t) :
    t ∈ run r ⟨0, text, []⟩ := by
  rw [find_start] at h
  exact List.mem_of_head? h

theorem occursin_iff {r : Regex} {text : List Char} :
    occursin (seq start r) text = true ↔ ∃ t, t ∈ run r ⟨0, text, []⟩ := by
  rw [occursin, find_start, List.isSome_head?]
  cases run r ⟨0, text, []⟩ with
  | nil => simp
  | cons u l => simp

end Matches

end Regex
