import Joolia.Library.Numbered

namespace Flow

open Relation Function

variable {α : Type*}

-- A depth-first search: the preorder number of a vertex and the vertex of a number, the
-- parents as numbers, the postorder numbers, the next numbers, and for every vertex on
-- the current path, the last one first, its successors that are still to be looked at.
structure Search (α : Type*) where
  pre : α → ℕ
  vertex : ℕ → α
  par : ℕ → ℕ
  post : α → ℕ
  num : ℕ
  postNum : ℕ
  frames : List (ℕ × List α)

def Search.Visited (s : Search α) (r : ℕ) (x : α) : Prop := ∃ p, r ≤ p ∧ p < s.num ∧ s.vertex p = x

def Search.gray (s : Search α) : List ℕ := s.frames.map Prod.fst

-- A path up the tree to the root.
inductive Upward (r : ℕ) (par : ℕ → ℕ) : List ℕ → Prop
  | nil : Upward r par []
  | root : Upward r par [r]
  | child {g h : ℕ} {rest : List ℕ} : r < g → par g = h → Upward r par (h :: rest) → Upward r par (g :: h :: rest)

theorem Upward.tail {r : ℕ} {par : ℕ → ℕ} {g : ℕ} {rest : List ℕ} (h : Upward r par (g :: rest)) :
    Upward r par rest := by
  cases h with
  | root => exact .nil
  | child _ _ h => exact h

theorem Upward.anc {r : ℕ} {par : ℕ → ℕ} {g : ℕ} {rest : List ℕ} (h : Upward r par (g :: rest)) :
    ∀ x ∈ g :: rest, Anc r par x g := by
  generalize hl : g :: rest = l at h
  induction h generalizing g rest with
  | nil => cases hl
  | root =>
      rintro x hx
      obtain ⟨rfl, -⟩ := List.cons_eq_cons.1 hl
      obtain rfl := List.mem_singleton.1 hx
      exact .refl
  | child hlt hpar _ ih =>
      rintro x hx
      obtain ⟨rfl, rfl⟩ := List.cons_eq_cons.1 hl
      rcases List.mem_cons.1 hx with rfl | hx
      · exact .refl
      · exact .step hlt (hpar ▸ ih rfl x hx)

theorem Upward.congr {r : ℕ} {par par' : ℕ → ℕ} {l : List ℕ} (h : Upward r par l)
    (hpar : ∀ x ∈ l, par' x = par x) : Upward r par' l := by
  induction h with
  | nil => exact .nil
  | root => exact .root
  | child hlt heq _ ih =>
      refine .child hlt ?_ (ih fun x hx => hpar x (List.mem_cons_of_mem _ hx))
      rw [hpar _ List.mem_cons_self, heq]

-- What holds between the steps of the search.
structure DepthFirst (E : α → α → Prop) (r : ℕ) (root : α) (s : Search α) : Prop where
  root_lt : r < s.num
  root_eq : s.vertex r = root
  pre_vertex : ∀ p, r ≤ p → p < s.num → s.pre (s.vertex p) = p
  unvisited : ∀ x, ¬s.Visited r x → s.pre x = 0
  order : TreeOrder r (s.num - 1) s.par
  tree : ∀ p, r < p → p < s.num → E (s.vertex (s.par p)) (s.vertex p)
  path : Upward r s.par s.gray
  range : ∀ g ∈ s.gray, r ≤ g ∧ g < s.num
  last : ∀ g ∈ s.gray, Anc r s.par g (s.num - 1)
  sound : ∀ f ∈ s.frames, ∀ x ∈ f.2, E (s.vertex f.1) x
  pending : ∀ f ∈ s.frames, ∀ x, E (s.vertex f.1) x → s.Visited r x ∨ x ∈ f.2
  closed : ∀ p, r ≤ p → p < s.num → p ∉ s.gray → ∀ x, E (s.vertex p) x →
    s.Visited r x ∧ (p < s.pre x → Anc r s.par p (s.pre x))
  post_lt : ∀ p, r ≤ p → p < s.num → p ∉ s.gray → s.post (s.vertex p) < s.postNum
  post_order : ∀ p q, r ≤ p → p < q → q < s.num → p ∉ s.gray → q ∉ s.gray → ¬Anc r s.par p q →
    s.post (s.vertex p) < s.post (s.vertex q)

section Steps

variable {E : α → α → Prop} {r : ℕ} {root : α} {s : Search α} (h : DepthFirst E r root s)
include h

theorem DepthFirst.visited_pre {x : α} (hx : s.Visited r x) : r ≤ s.pre x ∧ s.pre x < s.num ∧ s.vertex (s.pre x) = x := by
  obtain ⟨p, hr, hp, rfl⟩ := hx
  rw [h.pre_vertex p hr hp]
  exact ⟨hr, hp, rfl⟩

-- The vertices numbered after a vertex of the current path are below it.
theorem DepthFirst.anc_of_gray {g q : ℕ} (hg : g ∈ s.gray) (hgq : g ≤ q) (hq : q < s.num) : Anc r s.par g q :=
  h.order.anc_of_between (h.last g hg) (Nat.le_refl _) hgq (by omega)

-- The next successor has been visited.
theorem DepthFirst.skip {g : ℕ} {x : α} {xs : List α} {rest : List (ℕ × List α)}
    (hframes : s.frames = (g, x :: xs) :: rest) (hx : s.Visited r x) :
    DepthFirst E r root { s with frames := (g, xs) :: rest } := by
  have hgray : ({ s with frames := (g, xs) :: rest } : Search α).gray = s.gray := by
    simp [Search.gray, hframes]
  have hhead : (g, x :: xs) ∈ s.frames := hframes ▸ List.mem_cons_self
  refine
    { h with
      path := hgray ▸ h.path
      range := hgray ▸ h.range
      last := hgray ▸ h.last
      closed := hgray ▸ h.closed
      post_lt := hgray ▸ h.post_lt
      post_order := hgray ▸ h.post_order
      sound := fun f hf y hy => ?_
      pending := fun f hf y hy => ?_ }
  · rcases List.mem_cons.1 hf with rfl | hf
    · exact h.sound _ hhead y (List.mem_cons_of_mem x hy)
    · exact h.sound f (hframes ▸ List.mem_cons_of_mem _ hf) y hy
  · rcases List.mem_cons.1 hf with rfl | hf
    · rcases h.pending _ hhead y hy with hvis | hmem
      · exact .inl hvis
      · rcases List.mem_cons.1 hmem with rfl | hmem
        · exact .inl hx
        · exact .inr hmem
    · exact h.pending f (hframes ▸ List.mem_cons_of_mem _ hf) y hy

-- The vertex at the end of the path has no successor left.
theorem DepthFirst.finish {g : ℕ} {rest : List (ℕ × List α)} {f : α → ℕ}
    (hframes : s.frames = (g, []) :: rest) (hsame : ∀ x, x ≠ s.vertex g → f x = s.post x)
    (hle : f (s.vertex g) ≤ s.postNum) (hpost : r < g → f (s.vertex g) = s.postNum) :
    DepthFirst E r root { s with frames := rest, post := f, postNum := s.postNum + 1 } := by
  have hgray : s.gray = g :: rest.map Prod.fst := by simp [Search.gray, hframes]
  have hmem : g ∈ s.gray := hgray ▸ List.mem_cons_self
  obtain ⟨hrg, hgn⟩ := h.range g hmem
  have hold : ∀ p, p ≠ g → p ∉ rest.map Prod.fst → p ∉ s.gray := by
    intro p hp hrest
    rw [hgray]
    exact List.not_mem_cons_of_ne_of_not_mem hp hrest
  have hpost' : ∀ p, r ≤ p → p < s.num → p ≠ g → f (s.vertex p) = s.post (s.vertex p) := by
    intro p hr hp hne
    refine hsame _ fun heq => hne ?_
    rw [← h.pre_vertex p hr hp, heq, h.pre_vertex g hrg hgn]
  refine
    { h with
      path := (hgray ▸ h.path).tail
      range := fun p hp => h.range p (hgray ▸ List.mem_cons_of_mem g hp)
      last := fun p hp => h.last p (hgray ▸ List.mem_cons_of_mem g hp)
      sound := fun f hf => h.sound f (hframes ▸ List.mem_cons_of_mem _ hf)
      pending := fun f hf => h.pending f (hframes ▸ List.mem_cons_of_mem _ hf)
      closed := fun p hr hp hrest x hx => ?_
      post_lt := fun p hr hp hrest => ?_
      post_order := fun p q hr hpq hq hp' hq' hanc => ?_ }
  · by_cases hpg : p = g
    · subst hpg
      rcases h.pending _ (hframes ▸ List.mem_cons_self) x hx with hvis | hnone
      · exact ⟨hvis, fun hlt => h.anc_of_gray hmem (Nat.le_of_lt hlt) (h.visited_pre hvis).2.1⟩
      · cases hnone
    · exact h.closed p hr hp (hold p hpg hrest) x hx
  · by_cases hpg : p = g
    · subst hpg
      exact Nat.lt_succ_of_le hle
    · have := h.post_lt p hr hp (hold p hpg hrest)
      have := hpost' p hr hp hpg
      simp only at *
      omega
  · have hp : p < s.num := Nat.lt_trans hpq hq
    have hpg : p ≠ g := by
      rintro rfl
      exact hanc (h.anc_of_gray hmem (Nat.le_of_lt hpq) hq)
    simp only [hpost' p hr hp hpg]
    by_cases hqg : q = g
    · subst hqg
      rw [hpost (by omega)]
      exact h.post_lt p hr hp (hold p hpg hp')
    · rw [hpost' q (by omega) hq hqg]
      exact h.post_order p q hr hpq hq (hold p hpg hp') (hold q hqg hq') hanc

-- The next successor gets the next number, with the end of the path as its parent.
theorem DepthFirst.visit [DecidableEq α] {g : ℕ} {x : α} {xs ys : List α} {rest : List (ℕ × List α)}
    (hframes : s.frames = (g, x :: xs) :: rest) (hx : ¬s.Visited r x) (hys : ∀ y, y ∈ ys ↔ E x y) :
    DepthFirst E r root { s with
      pre := update s.pre x s.num
      vertex := update s.vertex s.num x
      par := update s.par s.num g
      num := s.num + 1
      frames := (s.num, ys) :: (g, xs) :: rest } := by
  have hgray : s.gray = g :: rest.map Prod.fst := by simp [Search.gray, hframes]
  have hmem : g ∈ s.gray := hgray ▸ List.mem_cons_self
  have hhead : (g, x :: xs) ∈ s.frames := hframes ▸ List.mem_cons_self
  have hrest : ∀ f ∈ rest, f ∈ s.frames := fun f hf => hframes ▸ List.mem_cons_of_mem _ hf
  have hroot := h.root_lt
  -- Nothing changes below the new number.
  have hvertex : ∀ p, p < s.num → update s.vertex s.num x p = s.vertex p := fun p hp =>
    update_of_ne (by omega) _ _
  have hpar : ∀ p, p < s.num → update s.par s.num g p = s.par p := fun p hp => update_of_ne (by omega) _ _
  have hpre : ∀ y, s.Visited r y → update s.pre x s.num y = s.pre y := fun y hy =>
    update_of_ne (fun heq : y = x => hx (heq ▸ hy)) _ _
  have hanc : ∀ {a b : ℕ}, b < s.num → Anc r s.par a b → Anc r (update s.par s.num g) a b := fun hb hab =>
    h.order.anc_congr hab (by omega) fun y _ hy => hpar y (by omega)
  have hlast : ∀ p ∈ s.gray, Anc r (update s.par s.num g) p s.num := fun p hp => by
    refine .step hroot ?_
    rw [update_self]
    exact hanc (h.range g hmem).2 ((hgray ▸ h.path).anc p (hgray ▸ hp))
  have hvisited : ∀ y, s.Visited r y → ∃ p, r ≤ p ∧ p < s.num + 1 ∧ update s.vertex s.num x p = y := by
    rintro y ⟨p, hr, hp, rfl⟩
    exact ⟨p, hr, by omega, hvertex p hp⟩
  have hvisitedx : ∃ p, r ≤ p ∧ p < s.num + 1 ∧ update s.vertex s.num x p = x :=
    ⟨s.num, by omega, by omega, update_self _ _ _⟩
  have hblack : ∀ p, p < s.num + 1 → p ∉ s.num :: g :: rest.map Prod.fst → p < s.num ∧ p ∉ s.gray := by
    intro p hp hnot
    rw [List.mem_cons, not_or] at hnot
    exact ⟨by omega, hgray ▸ hnot.2⟩
  constructor
  case root_lt => exact Nat.lt_succ_of_lt hroot
  case root_eq => exact (hvertex r hroot).trans h.root_eq
  case pre_vertex =>
      intro p hr hp
      by_cases hpn : p = s.num
      · subst hpn
        simp
      · have hp : p < s.num := by simp only at hp; omega
        simp only [hvertex p hp]
        rw [hpre _ ⟨p, hr, hp, rfl⟩, h.pre_vertex p hr hp]
  case unvisited =>
      intro y hy
      have hyx : y ≠ x := fun heq => hy (heq ▸ hvisitedx)
      simp only [update_of_ne hyx]
      exact h.unvisited y fun hvis => hy (hvisited y hvis)
  case order =>
      obtain ⟨n, hn⟩ : ∃ n, s.num = n + 1 := ⟨s.num - 1, by omega⟩
      have horder := h.order
      have hg := h.last g hmem
      rw [hn] at horder hg
      simp only [hn]
      exact horder.extend (by omega) hg
  case tree =>
      intro p hr hp
      by_cases hpn : p = s.num
      · subst hpn
        simp only [update_self, hvertex g (h.range g hmem).2]
        exact h.sound _ hhead x List.mem_cons_self
      · have hp : p < s.num := by simp only at hp; omega
        have hlt := (h.order.par_lt p hr (by omega)).2
        simp only [hpar p hp, hvertex p hp, hvertex (s.par p) (by omega)]
        exact h.tree p hr hp
  case path =>
      refine .child hroot (update_self _ _ _) ((hgray ▸ h.path).congr fun p hp => ?_)
      exact hpar p (h.range p (hgray ▸ hp)).2
  case range =>
      rintro p (_ | ⟨_, hp⟩)
      · exact ⟨Nat.le_of_lt hroot, Nat.lt_succ_self _⟩
      · have := h.range p (hgray ▸ hp)
        simp only
        omega
  case last =>
      rintro p (_ | ⟨_, hp⟩)
      · exact .refl
      · exact hlast p (hgray ▸ hp)
  case sound =>
      rintro f (_ | ⟨_, _ | ⟨_, hf⟩⟩) y hy
      · simp only [update_self]
        exact (hys y).1 hy
      · simp only [hvertex g (h.range g hmem).2]
        exact h.sound _ hhead y (List.mem_cons_of_mem x hy)
      · have hf' := hrest f hf
        simp only [hvertex f.1 (h.range f.1 (List.mem_map_of_mem hf')).2]
        exact h.sound f hf' y hy
  case pending =>
      rintro f (_ | ⟨_, _ | ⟨_, hf⟩⟩) y hy
      · simp only [update_self] at hy
        exact .inr ((hys y).2 hy)
      · simp only [hvertex g (h.range g hmem).2] at hy
        rcases h.pending _ hhead y hy with hvis | hin
        · exact .inl (hvisited y hvis)
        · rcases List.mem_cons.1 hin with rfl | hin
          · exact .inl hvisitedx
          · exact .inr hin
      · have hf' := hrest f hf
        simp only [hvertex f.1 (h.range f.1 (List.mem_map_of_mem hf')).2] at hy
        exact (h.pending f hf' y hy).imp_left (hvisited y)
  case closed =>
      intro p hr hp hnot y hy
      obtain ⟨hp, hnot⟩ := hblack p hp hnot
      simp only [hvertex p hp] at hy
      obtain ⟨hvis, hbelow⟩ := h.closed p hr hp hnot y hy
      refine ⟨hvisited y hvis, fun hlt => ?_⟩
      simp only [hpre y hvis] at hlt ⊢
      exact hanc (h.visited_pre hvis).2.1 (hbelow hlt)
  case post_lt =>
      intro p hr hp hnot
      obtain ⟨hp, hnot⟩ := hblack p hp hnot
      simp only [hvertex p hp]
      exact h.post_lt p hr hp hnot
  case post_order =>
      intro p q hr hpq hq hnotp hnotq hno
      obtain ⟨hp, hnotp⟩ := hblack p (Nat.lt_trans hpq hq) hnotp
      obtain ⟨hq, hnotq⟩ := hblack q hq hnotq
      simp only [hvertex p hp, hvertex q hq]
      exact h.post_order p q hr hpq hq hnotp hnotq fun hpq' => hno (hanc hq hpq')

end Steps

-- The root alone, with all its successors still to be looked at.
theorem depthFirst_root {E : α → α → Prop} {r : ℕ} {root : α} {s : Search α} {ys : List α} (hnum : s.num = r + 1)
    (hroot : s.vertex r = root) (hpre : s.pre root = r) (hunvisited : ∀ x, x ≠ root → s.pre x = 0)
    (hframes : s.frames = [(r, ys)]) (hys : ∀ y, y ∈ ys ↔ E root y) : DepthFirst E r root s := by
  have hgray : s.gray = [r] := by simp [Search.gray, hframes]
  have honly : ∀ p, r ≤ p → p < s.num → p = r := fun p hr hp => by omega
  have hnone : ∀ p, r ≤ p → p < s.num → p ∈ s.gray := fun p hr hp => by simp [hgray, honly p hr hp]
  constructor
  case root_lt => omega
  case root_eq => exact hroot
  case pre_vertex =>
      intro p hr hp
      rw [honly p hr hp, hroot, hpre]
  case unvisited =>
      intro x hx
      refine hunvisited x fun heq => hx ⟨r, Nat.le_refl r, by omega, ?_⟩
      rw [hroot, heq]
  case order => exact ⟨fun w hr hw => by omega, fun w hr hw => by omega⟩
  case tree => exact fun p hr hp => by omega
  case path => exact hgray ▸ .root
  case range =>
      intro g hg
      rw [hgray, List.mem_singleton] at hg
      omega
  case last =>
      intro g hg
      rw [hgray, List.mem_singleton] at hg
      rw [hg, hnum]
      exact .refl
  case sound =>
      intro f hf x hx
      rw [hframes, List.mem_singleton] at hf
      subst hf
      exact hroot ▸ (hys x).1 hx
  case pending =>
      intro f hf x hx
      rw [hframes, List.mem_singleton] at hf
      subst hf
      exact .inr ((hys x).2 (hroot ▸ hx))
  case closed => exact fun p hr hp hnot => (hnot (hnone p hr hp)).elim
  case post_lt => exact fun p hr hp hnot => (hnot (hnone p hr hp)).elim
  case post_order => exact fun p q hr hpq hq hnot => (hnot (hnone p hr (by omega))).elim

-- An edge between two numbered vertices.
def NumberEdge (E : α → α → Prop) (r n : ℕ) (vertex : ℕ → α) (a b : ℕ) : Prop :=
  (r ≤ a ∧ a ≤ n) ∧ (r ≤ b ∧ b ≤ n) ∧ E (vertex a) (vertex b)

-- The outcome of a search: the vertices reached from the root, numbered `r, ..., n`.
structure Numbering (E : α → α → Prop) (r n : ℕ) (root : α) (pre : α → ℕ) (vertex : ℕ → α) (par : ℕ → ℕ) : Prop where
  root_le : r ≤ n
  root_eq : vertex r = root
  pre_vertex : ∀ p, r ≤ p → p ≤ n → pre (vertex p) = p
  unvisited : ∀ x, (∀ p, r ≤ p → p ≤ n → vertex p ≠ x) → pre x = 0
  closed : ∀ p x, r ≤ p → p ≤ n → E (vertex p) x → ∃ q, r ≤ q ∧ q ≤ n ∧ vertex q = x
  numbered : Numbered r n par (NumberEdge E r n vertex)

-- Only the numbers `r, ..., n` matter.
theorem Numbering.congr {E : α → α → Prop} {r n : ℕ} {root : α} {pre : α → ℕ} {vertex vertex' : ℕ → α}
    {par par' : ℕ → ℕ} (h : Numbering E r n root pre vertex par) (hvertex : ∀ p, p ≤ n → vertex' p = vertex p)
    (hpar : ∀ p, p ≤ n → par' p = par p) : Numbering E r n root pre vertex' par' := by
  have hanc : ∀ {a b : ℕ}, b ≤ n → Anc r par a b → Anc r par' a b := fun hb hab =>
    h.numbered.anc_congr hab hb fun x _ hx => hpar x hx
  refine ⟨h.root_le, (hvertex r h.root_le).trans h.root_eq, fun p hr hp => ?_, fun x hx => ?_, ?_, ?_⟩
  · rw [hvertex p hp, h.pre_vertex p hr hp]
  · exact h.unvisited x fun p hr hp => hvertex p hp ▸ hx p hr hp
  · intro p x hr hp hE
    rw [hvertex p hp] at hE
    obtain ⟨q, hrq, hq, heq⟩ := h.closed p x hr hp hE
    exact ⟨q, hrq, hq, (hvertex q hq).trans heq⟩
  · refine ⟨⟨fun w hr hw => ?_, fun w hr hw => ?_⟩, fun a b hab => ?_, fun w hr hw => ?_, fun a b hab hlt => ?_⟩
    · rw [hpar w hw]
      exact h.numbered.par_lt w hr hw
    · rw [hpar w hw]
      exact hanc (by omega) (h.numbered.preorder w hr hw)
    · unfold NumberEdge at hab
      omega
    · have hlt := h.numbered.par_lt w hr hw
      obtain ⟨ha, hb, hE⟩ := h.numbered.tree w hr hw
      refine ⟨by rw [hpar w hw]; exact ha, hb, ?_⟩
      rwa [hpar w hw, hvertex w hw, hvertex (par w) (by omega)]
    · obtain ⟨ha, hb, hE⟩ := hab
      rw [hvertex a ha.2, hvertex b hb.2] at hE
      exact hanc hb.2 (h.numbered.forward a b ⟨ha, hb, hE⟩ hlt)

-- The search ends with a numbering.
theorem DepthFirst.numbering {E : α → α → Prop} {r : ℕ} {root : α} {s : Search α} (h : DepthFirst E r root s)
    (hframes : s.frames = []) : Numbering E r (s.num - 1) root s.pre s.vertex s.par := by
  have hroot := h.root_lt
  have hgray : ∀ p, p ∉ s.gray := fun p => by simp [Search.gray, hframes]
  refine ⟨by omega, h.root_eq, fun p hr hp => h.pre_vertex p hr (by omega), fun x hx => ?_, ?_, ?_⟩
  · exact h.unvisited x fun ⟨p, hr, hp, heq⟩ => hx p hr (by omega) heq
  · intro p x hr hp hE
    obtain ⟨q, hrq, hq, heq⟩ := (h.closed p hr (by omega) (hgray p) x hE).1
    exact ⟨q, hrq, by omega, heq⟩
  · refine { h.order with range := fun a b hab => by unfold NumberEdge at hab; omega, tree := fun w hr hw => ?_, forward := ?_ }
    · obtain ⟨hrpar, hpar⟩ := h.order.par_lt w hr hw
      exact ⟨by omega, by omega, h.tree w hr (by omega)⟩
    · rintro a b ⟨ha, hb, hE⟩ hab
      have hanc := (h.closed a ha.1 (by omega) (hgray a) _ hE).2
      rw [h.pre_vertex b hb.1 (by omega)] at hanc
      exact hanc hab

end Flow

namespace Flow

open Relation

variable {α : Type*}

theorem walk_vertices {E : α → α → Prop} {r n : ℕ} {vertex : ℕ → α} {a b : ℕ} {l : List ℕ}
    (hwalk : Walk (NumberEdge E r n vertex) a b l) : Walk E (vertex a) (vertex b) (l.map vertex) := by
  induction hwalk with
  | nil a => exact .nil _
  | cons hab _ ih => exact .cons hab.2.2 ih

section Numbering

variable {E : α → α → Prop} {r n : ℕ} {root : α} {pre : α → ℕ} {vertex : ℕ → α} {par : ℕ → ℕ}
  (h : Numbering E r n root pre vertex par)
include h

theorem Numbering.vertex_inj {a b : ℕ} (ha : r ≤ a ∧ a ≤ n) (hb : r ≤ b ∧ b ≤ n) (heq : vertex a = vertex b) :
    a = b := by
  rw [← h.pre_vertex a ha.1 ha.2, heq, h.pre_vertex b hb.1 hb.2]

-- A walk through the vertices is a walk through their numbers.
theorem Numbering.walk_numbers {a : ℕ} {x : α} {l : List α} (ha : r ≤ a ∧ a ≤ n) (hwalk : Walk E (vertex a) x l) :
    ∃ b l', (r ≤ b ∧ b ≤ n) ∧ vertex b = x ∧ l'.map vertex = l ∧ (∀ c ∈ l', r ≤ c ∧ c ≤ n) ∧
      Walk (NumberEdge E r n vertex) a b l' := by
  generalize hx : vertex a = y at hwalk
  induction hwalk generalizing a with
  | nil y => exact ⟨a, [a], ha, hx, by simp [hx], by simpa using ha, .nil a⟩
  | @cons y z w l hyz _ ih =>
      subst hx
      obtain ⟨q, hrq, hqn, rfl⟩ := h.closed a z ha.1 ha.2 hyz
      obtain ⟨b, l', hb, hbx, hl', hrange, hwalk⟩ := ih ⟨hrq, hqn⟩ rfl
      refine ⟨b, a :: l', hb, hbx, by simp [hl'], ?_, .cons ⟨ha, ⟨hrq, hqn⟩, hyz⟩ hwalk⟩
      rintro c (_ | ⟨_, hc⟩)
      · exact ha
      · exact hrange c hc

-- The numbered vertices are the reachable ones.
theorem Numbering.reachable_iff {x : α} : (∃ l, Walk E root x l) ↔ ∃ p, (r ≤ p ∧ p ≤ n) ∧ vertex p = x := by
  constructor
  · rintro ⟨l, hwalk⟩
    rw [← h.root_eq] at hwalk
    obtain ⟨b, -, hb, rfl, -⟩ := h.walk_numbers ⟨Nat.le_refl r, h.root_le⟩ hwalk
    exact ⟨b, hb, rfl⟩
  · rintro ⟨p, hp, rfl⟩
    have hpath := h.numbered.via_of_anc (h.numbered.root_anc hp.1 hp.2) hp.2
    obtain ⟨l, hwalk, -⟩ := Walk.of_via hpath
    exact ⟨l.map vertex, h.root_eq ▸ walk_vertices hwalk⟩

theorem Numbering.dominates_iff {d w : ℕ} (hd : r ≤ d ∧ d ≤ n) (hw : r ≤ w ∧ w ≤ n) :
    Dominates E root (vertex d) (vertex w) ↔ Dominates (NumberEdge E r n vertex) r d w := by
  constructor
  · intro hdom l hwalk
    have hrange : ∀ c ∈ l, r ≤ c ∧ c ≤ n := hwalk.mem_of_closed ⟨Nat.le_refl r, h.root_le⟩ fun a b hab => hab.2.1
    obtain ⟨c, hc, heq⟩ := List.mem_map.1 (hdom _ (h.root_eq ▸ walk_vertices hwalk))
    obtain rfl := h.vertex_inj (hrange c hc) hd heq
    exact hc
  · intro hdom l hwalk
    rw [← h.root_eq] at hwalk
    obtain ⟨b, l', hb, hbw, rfl, -, hwalk'⟩ := h.walk_numbers ⟨Nat.le_refl r, h.root_le⟩ hwalk
    obtain rfl := h.vertex_inj hb hw hbw
    exact List.mem_map_of_mem (hdom l' hwalk')

-- The dominators of a numbered vertex are numbered, and not greater.
theorem Numbering.exists_of_dominates {x : α} {w : ℕ} (hw : r ≤ w ∧ w ≤ n) (hdom : Dominates E root x (vertex w)) :
    ∃ d, (r ≤ d ∧ d ≤ w) ∧ vertex d = x := by
  obtain ⟨l, hwalk⟩ := h.reachable_iff.2 ⟨w, hw, rfl⟩
  obtain ⟨l', hwalk', -⟩ := hwalk.upTo (hdom l hwalk)
  obtain ⟨d, hd, rfl⟩ := h.reachable_iff.1 ⟨l', hwalk'⟩
  have hanc := h.numbered.anc_of_dominates hw.1 hw.2 ((h.dominates_iff hd hw).1 hdom)
  exact ⟨d, ⟨hd.1, h.numbered.anc_le hanc hw.2⟩, rfl⟩

theorem Numbering.idom {i w : ℕ} (hi : r ≤ i ∧ i ≤ n) (hw : r ≤ w ∧ w ≤ n) (hidom : Idom (NumberEdge E r n vertex) r i w) :
    Idom E root (vertex i) (vertex w) := by
  refine ⟨fun heq => hidom.ne (h.vertex_inj hi hw heq), (h.dominates_iff hi hw).2 hidom.dominates, ?_⟩
  intro x hne hdom
  obtain ⟨d, hd, rfl⟩ := h.exists_of_dominates hw hdom
  have hd' : r ≤ d ∧ d ≤ n := by omega
  refine (h.dominates_iff hd' hi).2 (hidom.least d ?_ ((h.dominates_iff hd' hw).1 hdom))
  rintro rfl
  exact hne rfl

theorem Numbering.dominates_antisymm {x y : α} (hx : ∃ l, Walk E root x l) (hxy : Dominates E root x y)
    (hyx : Dominates E root y x) : x = y := by
  obtain ⟨w, hw, rfl⟩ := h.reachable_iff.1 hx
  obtain ⟨d, hd, rfl⟩ := h.exists_of_dominates hw hyx
  obtain ⟨w', hw', heq⟩ := h.exists_of_dominates (w := d) (by omega) hxy
  obtain rfl := h.vertex_inj (by omega) hw heq
  obtain rfl : w' = d := by omega
  rfl

end Numbering

end Flow
