import Joolia.Library.Flow
import Mathlib.Data.Nat.Find

namespace Flow

open Relation

-- The tree order given by a parent function below a root.
inductive Anc (r : ℕ) (par : ℕ → ℕ) (a : ℕ) : ℕ → Prop
  | refl : Anc r par a a
  | step {b : ℕ} : r < b → Anc r par a (par b) → Anc r par a b

-- The vertices `r, ..., n` are numbered in the preorder of the tree.
structure TreeOrder (r n : ℕ) (par : ℕ → ℕ) : Prop where
  par_lt : ∀ w, r < w → w ≤ n → r ≤ par w ∧ par w < w
  preorder : ∀ w, r < w → w ≤ n → Anc r par (par w) (w - 1)

-- A flowgraph whose vertices are numbered in the preorder of a depth-first search from
-- `r`, with the parents in its tree.
structure Numbered (r n : ℕ) (par : ℕ → ℕ) (E : ℕ → ℕ → Prop) : Prop extends TreeOrder r n par where
  range : ∀ a b, E a b → r ≤ a ∧ a ≤ n ∧ r ≤ b ∧ b ≤ n
  tree : ∀ w, r < w → w ≤ n → E (par w) w
  forward : ∀ a b, E a b → a < b → Anc r par a b

theorem Anc.trans {r : ℕ} {par : ℕ → ℕ} {a b c : ℕ} (hab : Anc r par a b) (hbc : Anc r par b c) :
    Anc r par a c := by
  induction hbc with
  | refl => exact hab
  | step hlt _ ih => exact .step hlt ih

theorem Anc.of_ne {r : ℕ} {par : ℕ → ℕ} {a b : ℕ} (h : Anc r par a b) (hne : a ≠ b) :
    r < b ∧ Anc r par a (par b) := by
  cases h with
  | refl => exact (hne rfl).elim
  | step hlt h => exact ⟨hlt, h⟩

section Tree

variable {r n : ℕ} {par : ℕ → ℕ} (hT : TreeOrder r n par)
include hT

theorem TreeOrder.anc_le {a b : ℕ} (h : Anc r par a b) (hb : b ≤ n) : a ≤ b := by
  induction h with
  | refl => exact Nat.le_refl _
  | step hlt _ ih =>
      have := (hT.par_lt _ hlt hb).2
      have := ih (by omega)
      omega

theorem TreeOrder.le_anc {a b : ℕ} (h : Anc r par a b) (hr : r ≤ b) (hb : b ≤ n) : r ≤ a := by
  induction h with
  | refl => exact hr
  | step hlt _ ih =>
      obtain ⟨hle, hpar⟩ := hT.par_lt _ hlt hb
      exact ih hle (by omega)

theorem TreeOrder.root_anc {w : ℕ} (hr : r ≤ w) (hw : w ≤ n) : Anc r par r w := by
  induction w using Nat.strong_induction_on with
  | h w ih =>
      by_cases hlt : r < w
      · obtain ⟨hle, hpar⟩ := hT.par_lt w hlt hw
        exact .step hlt (ih (par w) hpar hle (by omega))
      · obtain rfl : w = r := by omega
        exact .refl

-- The descendants of a vertex have consecutive numbers.
theorem TreeOrder.anc_of_between {m x y : ℕ} (hx : Anc r par m x) (hxn : x ≤ n) (hmy : m ≤ y) (hyx : y ≤ x) :
    Anc r par m y := by
  induction hyx using Nat.decreasingInduction with
  | self => exact hx
  | of_succ y hy ih =>
      have hnext := ih (by omega)
      obtain ⟨hlt, hpar⟩ := hnext.of_ne (by omega)
      exact hpar.trans (hT.preorder (y + 1) hlt (by omega))

-- Two ancestors of one vertex are ancestors of each other.
theorem TreeOrder.anc_of_anc {a b c : ℕ} (ha : Anc r par a c) (hb : Anc r par b c) (hc : c ≤ n) (hab : a ≤ b) :
    Anc r par a b := hT.anc_of_between ha hc hab (hT.anc_le hb hc)

-- Only the parents up to a vertex decide its ancestors.
theorem TreeOrder.anc_congr {par' : ℕ → ℕ} {a b : ℕ} (h : Anc r par a b) (hb : b ≤ n)
    (hpar : ∀ x, r < x → x ≤ n → par' x = par x) : Anc r par' a b := by
  induction h with
  | refl => exact .refl
  | @step b hlt _ ih =>
      have := (hT.par_lt b hlt hb).2
      refine .step hlt ?_
      rw [hpar b hlt hb]
      exact ih (by omega)

-- A new vertex with the next number, below an ancestor of the last one.
theorem TreeOrder.extend {g : ℕ} (hr : r ≤ n) (hg : Anc r par g n) :
    TreeOrder r (n + 1) (Function.update par (n + 1) g) := by
  have hpar : ∀ x, r < x → x ≤ n → Function.update par (n + 1) g x = par x := fun x _ hx =>
    Function.update_of_ne (by omega) _ _
  have hgn := hT.anc_le hg (Nat.le_refl n)
  have hrg := hT.le_anc hg hr (Nat.le_refl n)
  refine ⟨fun w hrw hw => ?_, fun w hrw hw => ?_⟩
  · by_cases hwn : w ≤ n
    · rw [hpar w hrw hwn]
      exact hT.par_lt w hrw hwn
    · obtain rfl : w = n + 1 := by omega
      rw [Function.update_self]
      omega
  · by_cases hwn : w ≤ n
    · rw [hpar w hrw hwn]
      exact hT.anc_congr (hT.preorder w hrw hwn) (by omega) hpar
    · obtain rfl : w = n + 1 := by omega
      rw [Function.update_self]
      exact hT.anc_congr hg (Nat.le_refl n) hpar

end Tree

section Paths

variable {r n : ℕ} {par : ℕ → ℕ} {E : ℕ → ℕ → Prop} (hG : Numbered r n par E)
include hG

-- A walk that stays above its first vertex stays below it in the tree.
theorem Numbered.anc_of_via {z y : ℕ} (h : Via E (z ≤ ·) z y) (hz : z ≤ n) : Anc r par z y ∧ y ≤ n := by
  induction h with
  | refl => exact ⟨.refl, hz⟩
  | @tail y y' _ hstep ih =>
      obtain ⟨hanc, hy⟩ := ih
      have hy' := (hG.range _ _ hstep.1).2.2.2
      refine ⟨?_, hy'⟩
      by_cases hlt : y < y'
      · exact hanc.trans (hG.forward _ _ hstep.1 hlt)
      · exact hG.anc_of_between hanc hy hstep.2 (by omega)

-- The tree path down to a descendant.
theorem Numbered.via_of_anc {a w : ℕ} (h : Anc r par a w) (hw : w ≤ n) :
    Via E (fun x => a < x ∧ Anc r par x w) a w := by
  induction h with
  | refl => exact .refl
  | @step b hlt hanc ih =>
      obtain ⟨hle, hpar⟩ := hG.par_lt b hlt hw
      have hpath := (ih (by omega)).mono fun x hx => (⟨hx.1, .step hlt hx.2⟩ : a < x ∧ Anc r par x b)
      have hab := hG.anc_le hanc (by omega)
      exact hpath.tail ⟨hG.tree b hlt hw, by omega, .refl⟩

end Paths

-- A walk from `v` to `w` whose inner vertices are all greater than `w`.
def SemiPath (E : ℕ → ℕ → Prop) (v w : ℕ) : Prop := ∃ u, Via E (w < ·) v u ∧ E u w

-- The semidominator: the least vertex with such a walk.
structure Semi (E : ℕ → ℕ → Prop) (s w : ℕ) : Prop where
  path : SemiPath E s w
  least : ∀ v, SemiPath E v w → s ≤ v

theorem SemiPath.edge {E : ℕ → ℕ → Prop} {v w : ℕ} (h : E v w) : SemiPath E v w := ⟨v, .refl, h⟩

theorem SemiPath.head {E : ℕ → ℕ → Prop} {v x w : ℕ} (h : E v x) (hlt : w < x) (hx : SemiPath E x w) :
    SemiPath E v w := by
  obtain ⟨u, hvia, hu⟩ := hx
  exact ⟨u, .head ⟨h, hlt⟩ hvia, hu⟩

-- The inner vertices and the last one.
theorem SemiPath.via {E : ℕ → ℕ → Prop} {v w : ℕ} (h : SemiPath E v w) : Via E (w ≤ ·) v w := by
  obtain ⟨u, hvia, hu⟩ := h
  exact (hvia.mono fun x hx => Nat.le_of_lt hx).tail ⟨hu, Nat.le_refl w⟩

section Semi

variable {r n : ℕ} {par : ℕ → ℕ} {E : ℕ → ℕ → Prop} (hG : Numbered r n par E)
include hG

-- The semidominator path of an ancestor of `v`, then the tree path to `v` and an edge.
theorem Numbered.semiPath_of_anc {s u v w : ℕ} (hs : SemiPath E s u) (hwu : w < u) (huv : Anc r par u v)
    (hvw : E v w) : SemiPath E s w := by
  have hv := (hG.range _ _ hvw).2.1
  have hfirst : Via E (w < ·) s u := hs.via.mono fun x hx => by omega
  have hsecond : Via E (w < ·) u v := (hG.via_of_anc huv hv).mono fun x hx => by omega
  exact ⟨v, hfirst.trans hsecond, hvw⟩

-- The first ancestor of `u` on a walk to `u` ends a semidominator path.
theorem Numbered.exists_semiPath {x u w : ℕ} (h : Via E (w < ·) x u) (hne : x ≠ u) :
    ∃ u', w < u' ∧ Anc r par u' u ∧ SemiPath E x u' := by
  induction h using ReflTransGen.head_induction_on with
  | refl => exact (hne rfl).elim
  | @head x y hxy hyu ih =>
      by_cases hy : y = u
      · subst hy
        exact ⟨y, hxy.2, .refl, .edge hxy.1⟩
      · obtain ⟨u', hwu', hanc, hpath⟩ := ih hy
        by_cases hlt : u' < y
        · exact ⟨u', hwu', hanc, .head hxy.1 hlt hpath⟩
        · by_cases heq : y = u'
          · subst heq
            exact ⟨y, hwu', hanc, .edge hxy.1⟩
          · have hstay := hG.anc_of_via (hpath.via.mono fun z (hz : u' ≤ z) => (by omega : y ≤ z))
              (hG.range _ _ hxy.1).2.2.2
            exact ⟨y, hxy.2, hstay.1.trans hanc, .edge hxy.1⟩

-- The values whose minimum is the semidominator of `w`: its parent, its smaller
-- predecessors, and the semidominators above its greater predecessors.
inductive Candidate (r : ℕ) (par : ℕ → ℕ) (E : ℕ → ℕ → Prop) (w : ℕ) : ℕ → Prop
  | parent : Candidate r par E w (par w)
  | pred {v : ℕ} : E v w → v ≤ w → Candidate r par E w v
  | above {v u s : ℕ} : E v w → w < u → Anc r par u v → Semi E s u → Candidate r par E w s

-- Every vertex but the root has a semidominator, smaller than itself.
theorem Numbered.exists_semi {w : ℕ} (hr : r < w) (hw : w ≤ n) : ∃ s, Semi E s w ∧ r ≤ s ∧ s < w := by
  have hex : ∃ s, SemiPath E s w := ⟨par w, .edge (hG.tree w hr hw)⟩
  classical
  have hle := Nat.find_min' hex (.edge (hG.tree w hr hw))
  have hlt := (hG.par_lt w hr hw).2
  refine ⟨Nat.find hex, ⟨Nat.find_spec hex, fun v hv => Nat.find_min' hex hv⟩, ?_, by omega⟩
  obtain ⟨u, hvia, hu⟩ := Nat.find_spec hex
  rcases hvia.cases_head with heq | ⟨c, hc, -⟩
  · rw [heq]
    exact (hG.range _ _ hu).1
  · exact (hG.range _ _ hc.1).1

theorem Numbered.semi_of_candidates {s w : ℕ} (hr : r < w) (hw : w ≤ n) (hs : Candidate r par E w s)
    (hle : ∀ c, Candidate r par E w c → s ≤ c) : Semi E s w := by
  refine ⟨?_, fun x hx => ?_⟩
  · cases hs with
    | parent => exact .edge (hG.tree w hr hw)
    | pred hE _ => exact .edge hE
    | above hE hwu hanc hsemi => exact hG.semiPath_of_anc hsemi.path hwu hanc hE
  · obtain ⟨u, hvia, hu⟩ := hx
    by_cases hxu : x = u
    · subst hxu
      by_cases hxw : x ≤ w
      · exact hle x (.pred hu hxw)
      · obtain ⟨sx, hsx, -, hlt⟩ := hG.exists_semi (w := x) (by omega) (hG.range _ _ hu).2.1
        have := hle sx (.above hu (by omega) .refl hsx)
        omega
    · obtain ⟨u', hwu', hanc, hpath⟩ := hG.exists_semiPath hvia hxu
      have hu'n : u' ≤ n := Nat.le_trans (hG.anc_le hanc (hG.range _ _ hu).2.1) (hG.range _ _ hu).2.1
      obtain ⟨su, hsu, -, -⟩ := hG.exists_semi (w := u') (by omega) hu'n
      exact Nat.le_trans (hle su (.above hu hwu' hanc hsu)) (hsu.least x hpath)

end Semi

theorem Semi.unique {E : ℕ → ℕ → Prop} {s s' w : ℕ} (h : Semi E s w) (h' : Semi E s' w) : s = s' :=
  Nat.le_antisymm (h.least s' h'.path) (h'.least s h.path)

-- The inner vertices of a semidominator path are greater than its last one, so an edge
-- into a smaller vertex is on none.
theorem SemiPath.of_edges {E E' : ℕ → ℕ → Prop} {t v w : ℕ} (h : SemiPath E v w) (hw : t < w)
    (hE : ∀ a b, t < b → E a b → E' a b) : SemiPath E' v w := by
  obtain ⟨u, hvia, hu⟩ := h
  refine ⟨u, ReflTransGen.mono (fun x y hxy => ⟨hE x y ?_ hxy.1, hxy.2⟩) v u hvia, hE u w hw hu⟩
  exact Nat.lt_trans hw hxy.2

theorem Semi.of_edges {E E' : ℕ → ℕ → Prop} {s t w : ℕ} (h : Semi E s w) (hw : t < w)
    (hE : ∀ a b, t < b → (E a b ↔ E' a b)) : Semi E' s w :=
  ⟨h.path.of_edges hw fun a b hb => (hE a b hb).1,
    fun v hv => h.least v (hv.of_edges hw fun a b hb => (hE a b hb).2)⟩

-- The semidominator is one of the candidates.
theorem Numbered.candidate_of_semi {r n : ℕ} {par : ℕ → ℕ} {E : ℕ → ℕ → Prop} (hG : Numbered r n par E) {s w : ℕ}
    (hr : r < w) (hw : w ≤ n) (h : Semi E s w) : Candidate r par E w s := by
  classical
  have hex : ∃ c, Candidate r par E w c := ⟨par w, .parent⟩
  have hfind := hG.semi_of_candidates hr hw (Nat.find_spec hex) fun c hc => Nat.find_min' hex hc
  rw [h.unique hfind]
  exact Nat.find_spec hex

-- When only edges into `t` change and the semidominator of `t` does not, no
-- semidominator changes.
theorem Numbered.semi_of_same {r n : ℕ} {par : ℕ → ℕ} {E E' : ℕ → ℕ → Prop} (hG : Numbered r n par E)
    (hG' : Numbered r n par E') {t : ℕ} (hE : ∀ a b, b ≠ t → (E a b ↔ E' a b))
    (ht : r < t → ∀ s, Semi E s t → Semi E' s t) {s w : ℕ} (hr : r < w) (hw : w ≤ n) (h : Semi E s w) : Semi E' s w := by
  induction hk : n - w using Nat.strong_induction_on generalizing s w with
  | h k ih =>
      -- The candidates for `w` are the same: its predecessors are, and the semidominators
      -- of greater vertices by induction.
      have habove : ∀ {s u}, w < u → u ≤ n → Semi E s u → Semi E' s u := fun hu hun hs =>
        ih _ (by omega) (by omega) hun hs rfl
      by_cases hwt : w = t
      · subst hwt
        exact ht hr s h
      · refine hG'.semi_of_candidates hr hw ?_ fun c hc => ?_
        · cases hG.candidate_of_semi hr hw h with
          | parent => exact .parent
          | pred hedge hle => exact .pred ((hE _ _ hwt).1 hedge) hle
          | above hedge hlt hanc hsemi =>
              have hvn := (hG.range _ _ hedge).2.1
              exact .above ((hE _ _ hwt).1 hedge) hlt hanc (habove hlt (Nat.le_trans (hG.anc_le hanc hvn) hvn) hsemi)
        · cases hc with
          | parent => exact h.least _ (.edge (hG.tree w hr hw))
          | pred hedge _ => exact h.least _ (.edge ((hE _ _ hwt).2 hedge))
          | @above v u c hedge hlt hanc hsemi =>
              have hedge' := (hE _ _ hwt).2 hedge
              have hvn := (hG.range _ _ hedge').2.1
              have hun := Nat.le_trans (hG.anc_le hanc hvn) hvn
              obtain ⟨su, hsu, -, -⟩ := hG.exists_semi (w := u) (by omega) hun
              rw [hsemi.unique (habove hlt hun hsu)]
              exact h.least _ (hG.semiPath_of_anc hsu.path hlt hanc hedge')

end Flow

namespace Flow

open Relation

section Dominators

variable {r n : ℕ} {par : ℕ → ℕ} {E : ℕ → ℕ → Prop} (hG : Numbered r n par E)
include hG

-- The dominators of a vertex lie on the tree path to it.
theorem Numbered.anc_of_dominates {d w : ℕ} (hr : r ≤ w) (hw : w ≤ n) (h : Dominates E r d w) :
    Anc r par d w := by
  have hroot := hG.root_anc hr hw
  obtain ⟨l, hwalk, hl⟩ := Walk.of_via (hG.via_of_anc hroot hw)
  rcases hl d (h l hwalk) with rfl | hd
  · exact hroot
  · exact hd.2

-- The tree path to a vertex smaller than `d`.
theorem Numbered.avoid_of_lt {d x : ℕ} (hr : r ≤ x) (hx : x ≤ n) (hlt : x < d) : Via E (· ≠ d) r x :=
  (hG.via_of_anc (hG.root_anc hr hx) hx).mono fun y hy => by
    have := hG.anc_le hy.2 hx
    omega

-- The tree path down from a vertex greater than `d`.
theorem Numbered.avoid_of_anc {d x y : ℕ} (hlt : d < x) (hxy : Anc r par x y) (hy : y ≤ n) :
    Via E (· ≠ d) x y :=
  (hG.via_of_anc hxy hy).mono fun z hz => by omega

theorem Numbered.semiPath_range {x y : ℕ} (h : SemiPath E x y) : r ≤ x ∧ x ≤ n ∧ r ≤ y ∧ y ≤ n := by
  obtain ⟨u, hvia, hu⟩ := h
  have hu' := hG.range _ _ hu
  rcases hvia.cases_head with rfl | ⟨c, hc, -⟩
  · exact hu'
  · have hc' := hG.range _ _ hc.1
    omega

-- Down the tree to a semidominator below `d`, then along its path.
theorem Numbered.avoid_of_semiPath {d x y : ℕ} (h : SemiPath E x y) (hx : x < d) (hy : d < y) :
    Via E (· ≠ d) r y := by
  obtain ⟨hrx, hxn, -, -⟩ := hG.semiPath_range h
  exact (hG.avoid_of_lt hrx hxn hx).trans (h.via.mono fun z (hz : y ≤ z) => by omega)

theorem Numbered.dominates_par {d w : ℕ} (hr : r < w) (hw : w ≤ n) (hne : d ≠ w) (h : Dominates E r d w) :
    Dominates E r d (par w) := by
  rw [dominates_iff] at h ⊢
  rintro ⟨hrd, hvia⟩
  exact h ⟨hrd, hvia.tail ⟨hG.tree w hr hw, hne.symm⟩⟩

-- A proper dominator is not greater than the semidominator.
theorem Numbered.le_semi_of_dominates {d s w : ℕ} (hr : r < w) (hw : w ≤ n) (hne : d ≠ w)
    (h : Dominates E r d w) (hs : Semi E s w) : d ≤ s := by
  by_contra hlt
  have hdw := hG.anc_le (hG.anc_of_dominates (by omega) hw h) hw
  have hrs := (hG.semiPath_range hs.path).1
  rw [dominates_iff] at h
  exact h ⟨by omega, hG.avoid_of_semiPath hs.path (by omega) (by omega)⟩

-- A walk that avoids `d` and gets past it does so by a semidominator path around it.
theorem Numbered.exists_around {d z : ℕ} (hrd : r < d) (h : Via E (· ≠ d) r z) :
    z < d ∨ ∃ x y, x < d ∧ d < y ∧ SemiPath E x y ∧ Anc r par y z := by
  induction h with
  | refl => exact .inl hrd
  | @tail z z' _ hstep ih =>
      obtain ⟨hedge, hne⟩ := hstep
      have hrange := hG.range _ _ hedge
      by_cases hlt : z' < d
      · exact .inl hlt
      · have hgt : d < z' := by omega
        right
        rcases ih with hz | ⟨x, y, hx, hy, hpath, hanc⟩
        · exact ⟨z, z', hz, hgt, .edge hedge, .refl⟩
        · by_cases hzz' : z < z'
          · exact ⟨x, y, hx, hy, hpath, hanc.trans (hG.forward _ _ hedge hzz')⟩
          · by_cases hyz' : y ≤ z'
            · exact ⟨x, y, hx, hy, hpath, hG.anc_of_between hanc hrange.2.1 hyz' (by omega)⟩
            · exact ⟨x, z', hx, hgt, hG.semiPath_of_anc hpath (by omega) hanc hedge, .refl⟩

-- Conversely, what dominates the parent and is not greater than the semidominator
-- dominates the vertex.
theorem Numbered.dominates_of_par {d s w : ℕ} (hr : r < w) (hw : w ≤ n) (hpar : Dominates E r d (par w))
    (hs : Semi E s w) (hle : d ≤ s) : Dominates E r d w := by
  obtain ⟨hrpar, hparlt⟩ := hG.par_lt w hr hw
  have hanc := hG.anc_of_dominates hrpar (by omega) hpar
  have hdpar := hG.anc_le hanc (by omega)
  have hrd := hG.le_anc hanc hrpar (by omega)
  rw [dominates_iff] at hpar ⊢
  rintro ⟨hne, hvia⟩
  rcases hG.exists_around (by omega) hvia with hlt | ⟨x, y, hx, hy, hpath, hanc⟩
  · omega
  · by_cases hyw : y = w
    · subst hyw
      have := hs.least x hpath
      omega
    · obtain ⟨-, hypar⟩ := hanc.of_ne hyw
      exact hpar ⟨hne, (hG.avoid_of_semiPath hpath hx hy).trans (hG.avoid_of_anc hy hypar (by omega))⟩

end Dominators

-- Looking for the immediate dominator of `v` from its parent upwards: nothing that
-- dominates `v` has been passed.
structure Climb (E : ℕ → ℕ → Prop) (r : ℕ) (par : ℕ → ℕ) (s v x : ℕ) : Prop where
  dominates : Dominates E r x (par v)
  least : ∀ d, Dominates E r d (par v) → d ≤ s → Dominates E r d x

theorem climb_par {E : ℕ → ℕ → Prop} {r : ℕ} {par : ℕ → ℕ} {s v : ℕ} : Climb E r par s v (par v) :=
  ⟨dominates_self r (par v), fun _ hd _ => hd⟩

-- A vertex greater than the semidominator gives way to its own immediate dominator.
theorem Climb.next {E : ℕ → ℕ → Prop} {r : ℕ} {par : ℕ → ℕ} {s v x i : ℕ} (h : Climb E r par s v x) (hlt : s < x)
    (hi : Idom E r i x) : Climb E r par s v i :=
  ⟨dominates_trans hi.dominates h.dominates, fun d hd hle => hi.least d (by omega) (h.least d hd hle)⟩

-- The first vertex not greater than the semidominator is the immediate dominator.
theorem Numbered.idom_of_climb {r n : ℕ} {par : ℕ → ℕ} {E : ℕ → ℕ → Prop} (hG : Numbered r n par E)
    {s v x : ℕ} (hr : r < v) (hv : v ≤ n) (hs : Semi E s v) (h : Climb E r par s v x) (hle : x ≤ s) :
    Idom E r x v := by
  obtain ⟨hrpar, hpar⟩ := hG.par_lt v hr hv
  have hx := hG.anc_le (hG.anc_of_dominates hrpar (by omega) h.dominates) (by omega)
  refine ⟨by omega, hG.dominates_of_par hr hv h.dominates hs hle, fun d hne hd => ?_⟩
  exact h.least d (hG.dominates_par hr hv hne hd) (hG.le_semi_of_dominates hr hv hne hd hs)

end Flow
