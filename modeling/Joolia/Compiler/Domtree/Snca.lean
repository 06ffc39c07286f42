import Joolia.Compiler.Domtree.Semi
import Joolia.Library.DepthFirst

namespace Joolia.Compiler

open Loop OneBased Flow

-- The reset sets the labels up to `maxPre` to the number itself and the later ones to
-- the semidominator.
theorem resetState_spec (state : List SNCAData) {n maxPre : ℕ} (hle : maxPre ≤ n) :
    ∃ state', resetState state n maxPre = some state' ∧ state'.length = n ∧
      (∀ v, 0 < v → v ≤ maxPre → val state' v = ⟨typemaxPreNumber, v⟩) ∧
      ∀ v, maxPre < v → v ≤ n → (val state' v).semi = (val (resize state n) v).semi ∧
        (val state' v).label = (val state' v).semi := by
  obtain ⟨first, hfirst, hlen, hlow, hhigh⟩ := foldlM_up (I := Unit) (a := 1) (b := maxPre + 1) (s := resize state n)
    (f := fun _ state w => write state w ⟨typemaxPreNumber, w⟩)
    (fun k s => s.length = n ∧ (∀ v, 0 < v → v < k → val s v = ⟨typemaxPreNumber, v⟩) ∧ ∀ v, k ≤ v → val s v = val (resize state n) v)
    (by omega) ⟨length_resize _ _, fun v h0 hv => by omega, fun v _ => rfl⟩
    (fun k s hk hkm ⟨hlen, hlow, hhigh⟩ => by
      obtain ⟨s', hs', hlen', hval⟩ := write_spec (l := s) hk (by omega) (⟨typemaxPreNumber, k⟩ : SNCAData)
      refine ⟨s', fun _ => hs', hlen'.trans hlen, fun v h0 hv => ?_, fun v hv => ?_⟩
      · by_cases hvk : v = k
        · simp [hval, hvk]
        · rw [hval, Function.update_of_ne hvk]
          exact hlow v h0 (by omega)
      · rw [hval, Function.update_of_ne (by omega)]
        exact hhigh v (by omega))
  obtain ⟨last, hlast, hlen', hlow', hmid, -⟩ := foldlM_up (I := Unit) (a := maxPre + 1) (b := n + 1) (s := first)
    (f := fun _ state w => (do
      let semi := (← read state w).semi
      write state w ⟨semi, semi⟩))
    (fun k s => s.length = n ∧ (∀ v, 0 < v → v ≤ maxPre → val s v = ⟨typemaxPreNumber, v⟩) ∧
      (∀ v, maxPre < v → v < k → (val s v).semi = (val (resize state n) v).semi ∧ (val s v).label = (val s v).semi) ∧
      ∀ v, k ≤ v → val s v = val (resize state n) v)
    (by omega) ⟨hlen, fun v h0 hv => hlow v h0 (by omega), fun v h0 hv => by omega, fun v hv => hhigh v hv⟩
    (fun k s hk hkm ⟨hlen, hlow, hmid, hhigh⟩ => by
      have hread := read_eq (l := s) (i := k) (by omega) (by omega)
      obtain ⟨s', hs', hlen', hval⟩ := write_spec (l := s) (i := k) (by omega) (by omega)
        (⟨(val s k).semi, (val s k).semi⟩ : SNCAData)
      refine ⟨s', fun _ => by simp [hread, hs'], hlen'.trans hlen, fun v h0 hv => ?_, fun v h0 hv => ?_, fun v hv => ?_⟩
      · rw [hval, Function.update_of_ne (by omega)]
        exact hlow v h0 hv
      · by_cases hvk : v = k
        · simp [hval, hvk, hhigh k (Nat.le_refl k)]
        · rw [hval, Function.update_of_ne hvk]
          exact hmid v h0 (by omega)
      · rw [hval, Function.update_of_ne (by omega)]
        exact hhigh v (by omega))
  refine ⟨last, ?_, hlen', hlow', fun v h0 hv => hmid v h0 (by omega)⟩
  have hfirst := hfirst ()
  have hlast := hlast ()
  rw [Nat.add_sub_cancel] at hfirst
  rw [Nat.add_sub_add_right] at hlast
  simp only [resetState, hfirst, Option.bind_eq_bind, Option.bind_some]
  exact hlast

section Snca

variable {isPost : Bool} {blocks : List BasicBlock} {D : DFSTree} (hcfg : Consistent blocks)
  (hD : IsDFSTree isPost blocks D)
include hcfg hD

-- The loop that computes the semidominators from `maxPre` down.
theorem semis_spec {maxPre : ℕ} {state : List SNCAData} (hle : maxPre ≤ D.fromPre.length) (hlen : state.length = D.fromPre.length)
    (hroot : rootOf isPost ≤ maxPre) (hlow : ∀ v, 0 < v → v ≤ maxPre → (val state v).label = v)
    (hhigh : ∀ v, maxPre < v → v ≤ D.fromPre.length → (val state v).label = (val state v).semi)
    (hsemis : HasSemis isPost blocks D (maxPre + 1) state) :
    ∃ F, (∀ limit, (List.range' (rootOf isPost + 1) (maxPre + 1 - (rootOf isPost + 1))).reverse.foldlM
        (computeSemi limit isPost D blocks) ⟨state, D.toParentPre⟩ = some F) ∧
      F.state.length = D.fromPre.length ∧ HasSemis isPost blocks D (rootOf isPost + 1) F.state ∧
      ∀ x, x ≤ rootOf isPost → (val F.state x).semi = (val state x).semi := by
  have hT := hD.numbering.numbered.toTreeOrder
  have honly : ∀ v x, maxPre < v → v ≤ D.fromPre.length → Anc (rootOf isPost) (val D.toParentPre) x v →
      val D.toParentPre v < x → x = v := by
    intro v x hv hvn hx hlt
    by_contra hne
    have := (hT.par_lt v (by omega) hvn).2
    have := hT.anc_le (hx.of_ne hne).2 (by omega)
    omega
  have hinit : Linked (rootOf isPost) D.fromPre.length (val D.toParentPre) maxPre ⟨state, D.toParentPre⟩ := by
    refine ⟨⟨hlen, hD.toParentPre_length⟩, fun v hv hvn => ?_, fun v x hv hvn hx hlt => ?_, fun v x hv hvn hx hlt => ?_,
      fun v hv hvn => ?_, fun v _ => rfl, hlow⟩
    · exact ⟨.step (by omega) .refl, (hT.par_lt v (by omega) hvn).2⟩
    · rw [honly v x hv hvn hx hlt]
      exact hv
    · rw [honly v x hv hvn hx hlt, hhigh v hv hvn]
    · exact ⟨v, .refl, (hT.par_lt v (by omega) hvn).2, hhigh v hv hvn⟩
  obtain ⟨F, hF, hlinked, hsemi, hsame⟩ := foldlM_down (f := fun limit => computeSemi limit isPost D blocks)
    (s := ⟨state, D.toParentPre⟩) (a := rootOf isPost + 1) (b := maxPre + 1)
    (fun k F => Linked (rootOf isPost) D.fromPre.length (val D.toParentPre) (k - 1) F ∧ HasSemis isPost blocks D k F.state ∧
      ∀ x, x ≤ rootOf isPost → (val F.state x).semi = (val state x).semi)
    (by omega) ⟨hinit, hsemis, fun _ _ => rfl⟩
    (fun k F hk hkm ⟨hlinked, hsemi, hsame⟩ => by
      obtain ⟨F', hF', hlinked', hsemi', hother⟩ :=
        computeSemi_spec hcfg hD (by simpa using hlinked) hsemi (by omega) (by omega)
      exact ⟨F', hF', hlinked', hsemi', fun x hx => (hother x (by omega)).trans (hsame x hx)⟩)
  exact ⟨F, hF, hlinked.sized.state, hsemi, hsame⟩

omit hcfg in
-- The loop that climbs from the parent of `v`.
theorem computeIdom_spec {state : List SNCAData} {idomsPre : List ℕ} {v : ℕ} (hlen : state.length = D.fromPre.length)
    (hsemis : HasSemis isPost blocks D (rootOf isPost + 1) state) (hlen' : idomsPre.length = D.fromPre.length)
    (hv : rootOf isPost < v) (hvn : v ≤ D.fromPre.length) (hpar : val idomsPre v = val D.toParentPre v)
    (hidoms : ∀ u, rootOf isPost < u → u < v → Idom (D.Edge isPost blocks) (rootOf isPost) (val idomsPre u) u) :
    ∃ idomsPre' i, computeIdom state idomsPre v = some idomsPre' ∧ idomsPre'.length = D.fromPre.length ∧
      val idomsPre' = Function.update (val idomsPre) v i ∧ Idom (D.Edge isPost blocks) (rootOf isPost) i v := by
  have hG := hD.numbering.numbered
  have hsemi := hsemis v hv hvn
  have hroot := (hG.semiPath_range hsemi.path).1
  obtain ⟨hrpar, hparlt⟩ := hG.par_lt v hv hvn
  have hread := read_eq (l := idomsPre) (i := v) (by omega) (by omega)
  have hreads := read_eq (l := state) (i := v) (by omega) (by omega)
  obtain ⟨-, i, hloop, ⟨-, hclimb, -⟩, hend⟩ := whileDo_spec
    (c := fun idom => decide ((val state v).semi < idom)) (b := read idomsPre)
    (fun k i => k = i ∧ Climb (D.Edge isPost blocks) (rootOf isPost) (val D.toParentPre) (val state v).semi v i ∧ i < v)
    (fun k i ⟨hk, hclimb, hiv⟩ hcond => by
      have hlt : (val state v).semi < i := by simpa using hcond
      have hidom := hidoms i (by omega) hiv
      have hile : val idomsPre i < i := by
        have := hG.anc_le (hG.anc_of_dominates (by omega) (by omega) hidom.dominates) (by omega)
        have := hidom.ne
        omega
      exact ⟨val idomsPre i, val idomsPre i, by omega, read_eq (by omega) (by omega), rfl, hclimb.next hlt hidom, by omega⟩)
    (s := val D.toParentPre v) (k := val D.toParentPre v) (n := val D.toParentPre v + 1)
    ⟨rfl, climb_par, hparlt⟩ (by omega)
  obtain ⟨idomsPre', hwrite, hlen'', hval⟩ := write_spec (l := idomsPre) (i := v) (by omega) (by omega) i
  refine ⟨idomsPre', i, ?_, hlen''.trans hlen', hval, ?_⟩
  · simp [computeIdom, hread, hreads, hpar, hloop, hwrite]
  · have hle : i ≤ (val state v).semi := by simpa using hend
    exact hG.idom_of_climb hv hvn hsemi hclimb hle

omit hcfg in
theorem idomsPre_spec {state : List SNCAData} (hlen : state.length = D.fromPre.length)
    (hsemis : HasSemis isPost blocks D (rootOf isPost + 1) state) :
    ∃ idomsPre, (List.range' (rootOf isPost + 1) (D.fromPre.length + 1 - (rootOf isPost + 1))).foldlM (computeIdom state)
        D.toParentPre = some idomsPre ∧ idomsPre.length = D.fromPre.length ∧
      ∀ v, rootOf isPost < v → v ≤ D.fromPre.length → Idom (D.Edge isPost blocks) (rootOf isPost) (val idomsPre v) v := by
  have hroot := hD.numbering.root_le
  obtain ⟨idomsPre, hfold, hlen', hidoms, -⟩ := foldlM_up (I := Unit) (f := fun _ => computeIdom state)
    (s := D.toParentPre) (a := rootOf isPost + 1) (b := D.fromPre.length + 1)
    (fun k idomsPre => idomsPre.length = D.fromPre.length ∧
      (∀ v, rootOf isPost < v → v < k → Idom (D.Edge isPost blocks) (rootOf isPost) (val idomsPre v) v) ∧
      ∀ v, k ≤ v → val idomsPre v = val D.toParentPre v)
    (by omega) ⟨hD.toParentPre_length, fun v hr hv => by omega, fun v _ => rfl⟩
    (fun k idomsPre hk hkn ⟨hlen', hidoms, hsame⟩ => by
      obtain ⟨idomsPre', i, hcompute, hlen'', hval, hidom⟩ := computeIdom_spec hD hlen hsemis hlen' hk (by omega)
        (hsame k (Nat.le_refl k)) hidoms
      refine ⟨idomsPre', fun _ => hcompute, hlen'', fun v hr hv => ?_, fun v hv => ?_⟩
      · by_cases hvk : v = k
        · subst hvk
          rwa [hval, Function.update_self]
        · rw [hval, Function.update_of_ne hvk]
          exact hidoms v hr (by omega)
      · rw [hval, Function.update_of_ne (by omega)]
        exact hsame v (by omega))
  exact ⟨idomsPre, hfold (), hlen', fun v hr hv => hidoms v hr (by omega)⟩

end Snca

def Reaches (isPost : Bool) (blocks : List BasicBlock) (b : ℕ) : Prop :=
  ∃ l, Walk (Flows isPost blocks) (rootOf isPost) b l

-- The immediate dominators of the blocks, `0` for the root and for unreachable blocks.
structure HasIdoms (isPost : Bool) (blocks : List BasicBlock) (idomsBB : List ℕ) : Prop where
  length : idomsBB.length = blocks.length
  idom : ∀ b, 0 < b → b ≤ blocks.length → b ≠ rootOf isPost → Reaches isPost blocks b →
    Idom (Flows isPost blocks) (rootOf isPost) (val idomsBB b) b
  none : ∀ b, 0 < b → b ≤ blocks.length → b = rootOf isPost ∨ ¬Reaches isPost blocks b → val idomsBB b = 0

theorem mapM_eq_some {α β : Type} {f : α → Option β} {g : α → β} {l : List α} (h : ∀ x ∈ l, f x = some (g x)) :
    l.mapM f = some (l.map g) := by
  induction l with
  | nil => rfl
  | cons x l ih =>
      have htail := ih fun y hy => h y (List.mem_cons_of_mem x hy)
      simp [List.mapM_cons, h x List.mem_cons_self, htail]

theorem val_map_range' {g : ℕ → ℕ} {n b : ℕ} (hb : 0 < b) (hbn : b ≤ n) : val ((List.range' 1 n).map g) b = g b := by
  obtain ⟨k, rfl⟩ : ∃ k, b = k + 1 := ⟨b - 1, by omega⟩
  rw [val_succ, List.getD_eq_getElem?_getD, List.getElem?_map, List.getElem?_range' (by omega)]
  simp [Nat.add_comm]

theorem IsDFSTree.reaches_iff {isPost : Bool} {blocks : List BasicBlock} {D : DFSTree} (hD : IsDFSTree isPost blocks D)
    {b : ℕ} (hb : 0 < b) : Reaches isPost blocks b ↔ val D.toPre b ≠ 0 := by
  rw [Reaches, hD.numbering.reachable_iff]
  constructor
  · rintro ⟨p, hp, rfl⟩ hzero
    rw [hD.numbering.pre_vertex p hp.1 hp.2] at hzero
    rw [hzero, val_zero] at hb
    exact Nat.lt_irrefl 0 hb
  · intro hne
    exact ⟨val D.toPre b, hD.of_toPre hne⟩

theorem idomsBB_spec {isPost : Bool} {blocks : List BasicBlock} {D : DFSTree} (hD : IsDFSTree isPost blocks D)
    {idomsPre : List ℕ} (hlen : idomsPre.length = D.fromPre.length)
    (hidoms : ∀ v, rootOf isPost < v → v ≤ D.fromPre.length →
      Idom (D.Edge isPost blocks) (rootOf isPost) (val idomsPre v) v) :
    ∃ idomsBB, (List.range' 1 blocks.length).mapM (idomBB isPost D idomsPre) = some idomsBB ∧
      HasIdoms isPost blocks idomsBB := by
  have hN := hD.numbering
  have hroot := rootOf_le isPost
  -- A reachable block other than the root has a number greater than the root's.
  have hnumber : ∀ b, 0 < b → b ≠ rootOf isPost → val D.toPre b ≠ 0 →
      rootOf isPost < val D.toPre b ∧ val D.toPre b ≤ D.fromPre.length ∧ val D.fromPre (val D.toPre b) = b := by
    intro b hb hne hpre
    obtain ⟨hrange, hvertex⟩ := hD.of_toPre hpre
    refine ⟨Nat.lt_of_le_of_ne hrange.1 fun heq => hne ?_, hrange.2, hvertex⟩
    rw [← hvertex, ← heq, hN.root_eq]
  have hsmaller : ∀ v, rootOf isPost < v → v ≤ D.fromPre.length →
      rootOf isPost ≤ val idomsPre v ∧ val idomsPre v ≤ D.fromPre.length := by
    intro v hv hvn
    have hanc := hN.numbered.anc_of_dominates (Nat.le_of_lt hv) hvn (hidoms v hv hvn).dominates
    have := hN.numbered.anc_le hanc hvn
    exact ⟨hN.numbered.le_anc hanc (Nat.le_of_lt hv) hvn, by omega⟩
  let g : ℕ → ℕ := fun b =>
    if b = rootOf isPost ∨ val D.toPre b = 0 then 0 else val D.fromPre (val idomsPre (val D.toPre b))
  refine ⟨(List.range' 1 blocks.length).map g, mapM_eq_some fun b hb => ?_, by simp, fun b hb hbn hne hreach => ?_,
    fun b hb hbn hno => ?_⟩
  · rw [List.mem_range'_1] at hb
    have hread := read_eq (l := D.toPre) (i := b) (by omega) (by rw [hD.toPre_length]; omega)
    by_cases hzero : b = rootOf isPost ∨ val D.toPre b = 0
    · have hcond : ((!isPost && b == 1) || val D.toPre b == 0) = true := by
        rcases hzero with hzero | hzero
        · cases isPost with
          | false => simp_all
          | true =>
              simp only [rootOf_true] at hzero
              omega
        · simp [hzero]
      have hg : g b = 0 := if_pos hzero
      simp only [idomBB, hread, Option.bind_eq_bind, Option.bind_some, hcond, if_true, hg]
    · have hg : g b = val D.fromPre (val idomsPre (val D.toPre b)) := if_neg hzero
      rw [not_or] at hzero
      obtain ⟨hlt, hle, -⟩ := hnumber b (by omega) hzero.1 hzero.2
      have hcond : ((!isPost && b == 1) || val D.toPre b == 0) = false := by
        cases isPost <;> simp_all
      have hreadp := read_eq (l := idomsPre) (i := val D.toPre b) (by omega) (by omega)
      obtain ⟨-, hipn⟩ := hsmaller _ hlt hle
      by_cases hip : val idomsPre (val D.toPre b) = 0
      · simp only [idomBB, hread, hreadp, Option.bind_eq_bind, Option.bind_some, hcond, Bool.false_eq_true, if_false, hip,
          if_true, hg, val_zero, Nat.default_eq_zero]
      · have hreadf := read_eq (l := D.fromPre) (Nat.pos_of_ne_zero hip) hipn
        simp only [idomBB, hread, hreadp, Option.bind_eq_bind, Option.bind_some, hcond, Bool.false_eq_true, if_false, hip,
          hreadf, hg]
  · rw [val_map_range' hb hbn]
    rw [hD.reaches_iff hb] at hreach
    obtain ⟨hlt, hle, hvertex⟩ := hnumber b hb hne hreach
    simp only [g, hne, hreach, or_self, if_false]
    have := hN.idom (hsmaller _ hlt hle) ⟨Nat.le_of_lt hlt, hle⟩ (hidoms _ hlt hle)
    rwa [hvertex] at this
  · rw [val_map_range' hb hbn]
    rw [hD.reaches_iff hb, not_not] at hno
    simp only [g, hno, if_true]

theorem snca_spec {isPost : Bool} {blocks : List BasicBlock} (hcfg : Consistent blocks) {T : GenericDomTree isPost}
    (hD : IsDFSTree isPost blocks T.dfsTree) {maxPre : ℕ} (hle : maxPre ≤ T.dfsTree.fromPre.length)
    (hroot : rootOf isPost ≤ maxPre)
    (hsemis : HasSemis isPost blocks T.dfsTree (maxPre + 1) (resize T.sncaState T.dfsTree.fromPre.length)) :
    ∃ state idomsBB, (∀ limit, snca limit T blocks maxPre = some { T with sncaState := state, idomsBB := idomsBB }) ∧
      state.length = T.dfsTree.fromPre.length ∧ HasSemis isPost blocks T.dfsTree (rootOf isPost + 1) state ∧
      (isPost = false → (val state 1).semi = typemaxPreNumber) ∧ HasIdoms isPost blocks idomsBB := by
  obtain ⟨reset, hreset, hlen, hlow, hhigh⟩ := resetState_spec T.sncaState hle
  obtain ⟨F, hF, hlenF, hsemisF, hsame⟩ := semis_spec hcfg hD hle hlen hroot (fun v h0 hv => by rw [hlow v h0 hv]) (fun v hv hvn => (hhigh v hv hvn).2)
    fun u hu hun => by
      rw [(hhigh u hu hun).1]
      exact hsemis u hu hun
  obtain ⟨idomsPre, hidomsPre, hlenI, hidoms⟩ := idomsPre_spec hD hlenF hsemisF
  obtain ⟨idomsBB, hidomsBB, hhas⟩ := idomsBB_spec hD hlenI hidoms
  refine ⟨F.state, idomsBB, fun limit => ?_, hlenF, hsemisF, fun hdom => ?_, hhas⟩
  swap
  · subst hdom
    rw [hsame 1 (Nat.le_refl 1), hlow 1 Nat.one_pos hroot]
  have hfirst : (if isPost = true then 1 else 2) = rootOf isPost + 1 := by cases isPost <;> rfl
  simp only [snca, hreset, Option.bind_eq_bind, Option.bind_some, hfirst, hF limit, hidomsPre, hidomsBB]

end Joolia.Compiler
