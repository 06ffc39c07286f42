import Joolia.Compiler.Domtree
import Joolia.Library.Numbered

namespace Joolia.Compiler

open Loop OneBased Flow

structure Forest.Sized (F : Forest) (n : ℕ) : Prop where
  state : F.state.length = n
  ancestors : F.ancestors.length = n

theorem Forest.shortcut_spec {F : Forest} {n u v : ℕ} (hF : F.Sized n) (hu : 0 < u ∧ u ≤ n) (hv : 0 < v ∧ v ≤ n) :
    ∃ F', F.shortcut u v = some F' ∧ F'.Sized n ∧
      val F'.ancestors = Function.update (val F.ancestors) v (val F.ancestors u) ∧
      val F'.state = Function.update (val F.state) v
        ⟨(val F.state v).semi, min (val F.state u).label (val F.state v).label⟩ := by
  have hsu := read_eq hu.1 (hF.state.symm ▸ hu.2)
  have hsv := read_eq hv.1 (hF.state.symm ▸ hv.2)
  have hau := read_eq hu.1 (hF.ancestors.symm ▸ hu.2)
  obtain ⟨ancestors, hwrite, hlen, hval⟩ := write_spec hv.1 (hF.ancestors.symm ▸ hv.2) (val F.ancestors u)
  by_cases hlt : (val F.state u).label < (val F.state v).label
  · obtain ⟨state, hwrite', hlen', hval'⟩ := write_spec hv.1 (hF.state.symm ▸ hv.2)
      (⟨(val F.state v).semi, (val F.state u).label⟩ : SNCAData)
    refine ⟨⟨state, ancestors⟩, ?_, ⟨hlen'.trans hF.state, hlen.trans hF.ancestors⟩, hval, ?_⟩
    · simp [Forest.shortcut, hsu, hsv, hau, hlt, hwrite, hwrite']
    · rw [Nat.min_eq_left (Nat.le_of_lt hlt)]
      exact hval'
  · refine ⟨⟨F.state, ancestors⟩, ?_, ⟨hF.state, hlen.trans hF.ancestors⟩, hval, ?_⟩
    · simp [Forest.shortcut, hsu, hsv, hau, hlt, hwrite]
    · rw [Nat.min_eq_right (Nat.le_of_not_lt hlt)]
      exact (Function.update_eq_self v _).symm

-- The vertices greater than `w` are linked: the ancestor of `v` is a proper ancestor in
-- the tree, all vertices of the path between are linked too, and the label is the least
-- of the semidominators on the path.
structure Linked (r n : ℕ) (par : ℕ → ℕ) (w : ℕ) (F : Forest) : Prop where
  sized : F.Sized n
  anc : ∀ v, w < v → v ≤ n → Anc r par (val F.ancestors v) v ∧ val F.ancestors v < v
  linked : ∀ v x, w < v → v ≤ n → Anc r par x v → val F.ancestors v < x → w < x
  label_le : ∀ v x, w < v → v ≤ n → Anc r par x v → val F.ancestors v < x → (val F.state v).label ≤ (val F.state x).semi
  label_mem : ∀ v, w < v → v ≤ n →
    ∃ x, Anc r par x v ∧ val F.ancestors v < x ∧ (val F.state v).label = (val F.state x).semi
  parent : ∀ v, v ≤ w → val F.ancestors v = par v
  fresh : ∀ v, 0 < v → v ≤ w → (val F.state v).label = v

section Compress

variable {r n : ℕ} {par : ℕ → ℕ} (hT : TreeOrder r n par) {w : ℕ}
include hT

-- Taking over the ancestor of a compressed ancestor.
theorem Linked.shortcut {F : Forest} {v : ℕ} (h : Linked r n par w F) (hv : w < v) (hvn : v ≤ n)
    (hu : w < val F.ancestors v) :
    ∃ F', F.shortcut (val F.ancestors v) v = some F' ∧ Linked r n par w F' ∧
      val F'.ancestors v = val F.ancestors (val F.ancestors v) ∧
      (∀ x, v < x → val F'.ancestors x = val F.ancestors x ∧ val F'.state x = val F.state x) ∧
      ∀ x, (val F'.state x).semi = (val F.state x).semi := by
  obtain ⟨hanc, hlt⟩ := h.anc v hv hvn
  generalize hueq : val F.ancestors v = u at *
  have hun : u ≤ n := by omega
  obtain ⟨F', hshort, hsized, hA, hS⟩ := Forest.shortcut_spec h.sized (u := u) (v := v) (by omega) (by omega)
  have hAv : val F'.ancestors v = val F.ancestors u := by rw [hA, Function.update_self]
  have hAx : ∀ x, x ≠ v → val F'.ancestors x = val F.ancestors x := fun x hx => by rw [hA, Function.update_of_ne hx]
  have hSx : ∀ x, x ≠ v → val F'.state x = val F.state x := fun x hx => by rw [hS, Function.update_of_ne hx]
  have hSv : val F'.state v = ⟨(val F.state v).semi, min (val F.state u).label (val F.state v).label⟩ := by
    rw [hS, Function.update_self]
  have hsemi : ∀ x, (val F'.state x).semi = (val F.state x).semi := fun x => by
    by_cases hx : x = v
    · rw [hx, hSv]
    · rw [hSx x hx]
  -- The new path of `v` is the path up to `u` followed by the path of `u`.
  have hpath : ∀ x, Anc r par x v → val F.ancestors u < x →
      (Anc r par x u ∧ val F.ancestors u < x) ∨ (Anc r par x v ∧ u < x) := by
    intro x hx hux
    by_cases hxu : x ≤ u
    · exact .inl ⟨hT.anc_of_anc hx hanc hvn hxu, hux⟩
    · exact .inr ⟨hx, by omega⟩
  refine ⟨F', hshort, ?_, hAv, fun x hx => ⟨hAx x (by omega), hSx x (by omega)⟩, hsemi⟩
  constructor
  case sized => exact hsized
  case anc =>
      intro x hx hxn
      by_cases hxv : x = v
      · obtain ⟨hanc', hlt'⟩ := h.anc u hu hun
        rw [hxv, hAv]
        exact ⟨hanc'.trans hanc, by omega⟩
      · rw [hAx x hxv]
        exact h.anc x hx hxn
  case linked =>
      intro x y hx hxn hy hlty
      by_cases hxv : x = v
      · subst hxv
        rw [hAv] at hlty
        rcases hpath y hy hlty with ⟨hyu, hlty⟩ | ⟨hyv, hlty⟩
        · exact h.linked u y hu hun hyu hlty
        · omega
      · rw [hAx x hxv] at hlty
        exact h.linked x y hx hxn hy hlty
  case label_le =>
      intro x y hx hxn hy hlty
      rw [hsemi]
      by_cases hxv : x = v
      · subst hxv
        rw [hAv] at hlty
        rw [hSv]
        rcases hpath y hy hlty with ⟨hyu, hlty⟩ | ⟨hyv, hlty⟩
        · exact Nat.le_trans (Nat.min_le_left _ _) (h.label_le u y hu hun hyu hlty)
        · exact Nat.le_trans (Nat.min_le_right _ _) (h.label_le x y hx hxn hyv (by omega))
      · rw [hAx x hxv] at hlty
        rw [hSx x hxv]
        exact h.label_le x y hx hxn hy hlty
  case label_mem =>
      intro x hx hxn
      by_cases hxv : x = v
      · subst hxv
        rw [hAv, hSv]
        obtain ⟨-, hltu⟩ := h.anc u hu hun
        rcases Nat.le_total (val F.state u).label (val F.state x).label with hle | hle
        · obtain ⟨y, hy, hlty, heq⟩ := h.label_mem u hu hun
          refine ⟨y, hy.trans hanc, hlty, ?_⟩
          rw [hsemi, ← heq]
          exact Nat.min_eq_left hle
        · obtain ⟨y, hy, hlty, heq⟩ := h.label_mem x hx hxn
          refine ⟨y, hy, by omega, ?_⟩
          rw [hsemi, ← heq]
          exact Nat.min_eq_right hle
      · obtain ⟨y, hy, hlty, heq⟩ := h.label_mem x hx hxn
        exact ⟨y, hy, by rwa [hAx x hxv], by rw [hSx x hxv, hsemi, heq]⟩
  case parent =>
      intro x hx
      rw [hAx x (by omega)]
      exact h.parent x hx
  case fresh =>
      intro x hx0 hx
      rw [hSx x (by omega)]
      exact h.fresh x hx0 hx

-- What compressing `v` comes to: only vertices up to `v` change, no semidominator does,
-- and `v` ends below an ancestor that is not linked.
structure Compressed (r n : ℕ) (par : ℕ → ℕ) (w v : ℕ) (F F' : Forest) : Prop where
  linked : Linked r n par w F'
  top : val F'.ancestors v ≤ w
  frame : ∀ x, v < x → val F'.ancestors x = val F.ancestors x ∧ val F'.state x = val F.state x
  semi : ∀ x, (val F'.state x).semi = (val F.state x).semi

-- Both variants of path compression run the same way: the recursion with enough fuel,
-- and the loop from a worklist with `v` on top until `v` is off it.
theorem Linked.compress_spec {F : Forest} {v : ℕ} (h : Linked r n par w F) (hv : w < v) (hvn : v ≤ n) :
    ∃ F', Compressed r n par w v F F' ∧ (∀ fuel, v ≤ fuel → sncaCompress (w + 1) fuel v F = some F') ∧
      ∃ c, c ≤ 2 * v ∧ ∀ rest fuel,
        whileDo (fun s => !s.1.isEmpty) (compressStep (w + 1)) (fuel + c) ((val F.ancestors v, v) :: rest, F) =
          whileDo (fun s => !s.1.isEmpty) (compressStep (w + 1)) fuel (rest, F') := by
  induction v using Nat.strong_induction_on with
  | h v ih =>
      obtain ⟨-, hlt⟩ := h.anc v hv hvn
      have hread := read_eq (l := F.ancestors) (i := v) (by omega) (h.sized.ancestors.symm ▸ hvn)
      by_cases hu : w < val F.ancestors v
      · obtain ⟨F₁, hF₁, hrec, c, hc, hloop⟩ := ih _ hlt hu (by omega)
        have hsame := hF₁.frame v hlt
        obtain ⟨F', hshort, hlinked, hAv, hframe, hsemi⟩ := hF₁.linked.shortcut hT hv hvn (by rw [hsame.1]; exact hu)
        rw [hsame.1] at hshort hAv
        have hreadu := read_eq (l := F.ancestors) (i := val F.ancestors v) (by omega) (by rw [h.sized.ancestors]; omega)
        refine ⟨F', ⟨hlinked, by rw [hAv]; exact hF₁.top, fun x hx => ?_, fun x => ?_⟩, fun fuel hfuel => ?_, ?_⟩
        · obtain ⟨hA, hS⟩ := hframe x hx
          obtain ⟨hA₁, hS₁⟩ := hF₁.frame x (by omega)
          exact ⟨hA.trans hA₁, hS.trans hS₁⟩
        · exact (hsemi x).trans (hF₁.semi x)
        · obtain ⟨fuel, rfl⟩ : ∃ k, fuel = k + 1 := ⟨fuel - 1, by omega⟩
          simp [sncaCompress, hread, Nat.not_le.2 hlt, Nat.add_one_le_iff, hu, hrec fuel (by omega), hshort]
        · by_cases hnext : w < val F.ancestors (val F.ancestors v)
          · refine ⟨c + 2, by omega, fun rest fuel => ?_⟩
            have htop := hF₁.top
            have hread₁ := read_eq (l := F₁.ancestors) (i := val F.ancestors v) (by omega)
              (by rw [hF₁.linked.sized.ancestors]; omega)
            have hpush : compressStep (w + 1) ((val F.ancestors v, v) :: rest, F) =
                some ((val F.ancestors (val F.ancestors v), val F.ancestors v) :: (val F.ancestors v, v) :: rest, F) := by
              simp [compressStep, Nat.add_one_le_iff, hu, hreadu, hnext]
            have hpop : compressStep (w + 1) ((val F.ancestors v, v) :: rest, F₁) = some (rest, F') := by
              simp [compressStep, Nat.add_one_le_iff, hu, hread₁, Nat.not_lt.2 htop, hshort]
            rw [show fuel + (c + 2) = fuel + 1 + c + 1 by omega, whileDo]
            simp only [List.isEmpty_cons, Bool.not_false, if_true, hpush, Option.bind_some]
            rw [hloop, whileDo]
            simp [hpop]
          · refine ⟨1, by omega, fun rest fuel => ?_⟩
            -- The ancestor needs no compression.
            have hF : F₁ = F := by
              obtain ⟨k, hk⟩ : ∃ k, val F.ancestors v = k + 1 := ⟨val F.ancestors v - 1, by omega⟩
              have hltu := (h.anc _ hu (by omega)).2
              have := hrec (k + 1) (by omega)
              simp only [sncaCompress, hreadu, Option.bind_eq_bind, Option.bind_some, Nat.not_le.2 hltu, if_false] at this
              rw [if_neg (by omega)] at this
              exact (Option.some.inj this).symm
            subst hF
            rw [whileDo]
            simp [compressStep, Nat.add_one_le_iff, hu, hreadu, hnext, hshort]
      · refine ⟨F, ⟨h, by omega, fun x _ => ⟨rfl, rfl⟩, fun x => rfl⟩, fun fuel hfuel => ?_, 1, by omega, fun rest fuel => ?_⟩
        · obtain ⟨fuel, rfl⟩ : ∃ k, fuel = k + 1 := ⟨fuel - 1, by omega⟩
          simp [sncaCompress, hread, Nat.not_le.2 hlt, Nat.add_one_le_iff, hu]
        · rw [whileDo]
          simp [compressStep, Nat.add_one_le_iff, hu]

-- Path compression, whichever variant the number of ancestors selects.
theorem Linked.compress {F : Forest} {v : ℕ} (h : Linked r n par w F) (hv : w < v) (hvn : v ≤ n) :
    ∃ F', (∀ limit, compress limit (w + 1) v F = some F') ∧ Compressed r n par w v F F' := by
  obtain ⟨F', hF', hrec, c, hc, hloop⟩ := h.compress_spec hT hv hvn
  refine ⟨F', fun limit => ?_, hF'⟩
  unfold Compiler.compress
  split
  · exact hrec v (Nat.le_refl v)
  · have hread := read_eq (l := F.ancestors) (i := v) (by omega) (h.sized.ancestors.symm ▸ hvn)
    obtain ⟨-, hlt⟩ := h.anc v hv hvn
    have hrun := hloop [] (2 * v + 1 - c)
    rw [show 2 * v + 1 - c + c = 2 * v + 1 by omega] at hrun
    have hend : whileDo (fun s => !s.1.isEmpty) (compressStep (w + 1)) (2 * v - c + 1) ([], F') = some ([], F') := by
      simp [whileDo]
    rw [show 2 * v + 1 - c = 2 * v - c + 1 by omega, hend] at hrun
    simp only [sncaCompressWorklist, hread, Option.bind_eq_bind, Option.bind_some, Nat.not_le.2 hlt, if_false, hrun]

-- Linking `w` once its semidominator is known.
theorem Linked.link {semi : ℕ} {F : Forest} {state : List SNCAData}
    (h : Linked r n par w F) (hr : r < w) (hwn : w ≤ n) (hlen : state.length = n)
    (hval : val state = Function.update (val F.state) w ⟨semi, semi⟩) :
    Linked r n par (w - 1) { F with state := state } := by
  have hself : val state w = ⟨semi, semi⟩ := by rw [hval, Function.update_self]
  have hother : ∀ x, x ≠ w → val state x = val F.state x := fun x hx => by rw [hval, Function.update_of_ne hx]
  have hparent := h.parent w (Nat.le_refl w)
  have honly : ∀ x, Anc r par x w → par w < x → x = w := by
    intro x hx hlt
    by_contra hne
    have := hT.anc_le (hx.of_ne hne).2 (Nat.le_trans (Nat.le_of_lt (hT.par_lt w hr hwn).2) hwn)
    omega
  constructor
  case sized => exact ⟨hlen, h.sized.ancestors⟩
  case anc =>
      intro v hv hvn
      by_cases hvw : v = w
      · rw [hvw, hparent]
        exact ⟨.step hr .refl, (hT.par_lt w hr hwn).2⟩
      · exact h.anc v (by omega) hvn
  case linked =>
      intro v x hv hvn hx hlt
      by_cases hvw : v = w
      · subst hvw
        rw [hparent] at hlt
        have := honly x hx hlt
        omega
      · have := h.linked v x (by omega) hvn hx hlt
        omega
  case label_le =>
      intro v x hv hvn hx hlt
      by_cases hvw : v = w
      · subst hvw
        rw [hparent] at hlt
        obtain rfl := honly x hx hlt
        simp only [hself]
        exact Nat.le_refl semi
      · have hwx := h.linked v x (by omega) hvn hx hlt
        simp only [hother v hvw, hother x (by omega)]
        exact h.label_le v x (by omega) hvn hx hlt
  case label_mem =>
      intro v hv hvn
      by_cases hvw : v = w
      · refine ⟨w, hvw ▸ .refl, ?_, ?_⟩
        · simp only [hvw, hparent]
          exact (hT.par_lt w hr hwn).2
        · simp only [hvw, hself]
      · obtain ⟨x, hx, hlt, heq⟩ := h.label_mem v (by omega) hvn
        have hwx := h.linked v x (by omega) hvn hx hlt
        exact ⟨x, hx, hlt, by simp only [hother v hvw, hother x (by omega), heq]⟩
  case parent => exact fun v hv => h.parent v (by omega)
  case fresh =>
      intro v hv0 hv
      simp only [hother v (by omega)]
      exact h.fresh v hv0 (by omega)

end Compress

end Joolia.Compiler
