import Joolia.Base.Channels.Steps

namespace Joolia.Channels

open Fallible

variable {τ α ε : Type} [DecidableEq τ] {k : ℕ} {s s' : State τ α ε} {h : History τ α} {t : τ} {ev : Event α ε}

-- The values in the channel are the last ones pushed, and none of them has been dropped.
structure Fifo (data : List α) (h : History τ α) : Prop where
  kept_eq : h.takes ++ data = kept h.pushes h.dropped
  last : ∃ older, h.pushes = older ++ data ∧ ∀ i ∈ h.dropped, i < older.length
  nodup : h.dropped.Nodup

structure Good (k : ℕ) (s : State τ α ε) (h : History τ α) : Prop where
  size_eq : s.sz_max = k
  fifo : Fifo s.data h
  bounded : s.data.length ≤ k
  counted : ∃ F : Finset τ, (∀ t, t ∈ F ↔ (s.tasks t).offering = true) ∧ s.n_avail_items = s.data.length + F.card
  late : h.late = []
  own : ∀ t, (s.tasks t).inPut = true → (h.own t).avail = (s.tasks t).offer ∧ ∀ p ∈ (h.own t).writes, p.1 = p.2
  locked : ∀ t, s.lock = some t ↔ ∃ sec, s.tasks t = .holding sec

section Fifo

variable {data : List α}

omit [DecidableEq τ] in
theorem Fifo.push (hf : Fifo data h) (v : α) (late : List α) (own : τ → Account α) :
    Fifo (data ++ [v]) ⟨h.pushes ++ [v], h.dropped, h.takes, late, own⟩ := by
  obtain ⟨hkept, ⟨older, hpushes, hdropped⟩, hnodup⟩ := hf
  refine ⟨?_, ⟨older, ?_, hdropped⟩, hnodup⟩
  · dsimp only
    rw [kept_append, ← hkept, List.append_assoc, keptFrom_all [v]]
    intro i hi
    have := hdropped i hi
    rw [hpushes, List.length_append]
    omega
  · dsimp only
    rw [hpushes, List.append_assoc]

omit [DecidableEq τ] in
theorem Fifo.take {v : α} (hf : Fifo (v :: data) h) (own : τ → Account α) :
    Fifo data ⟨h.pushes, h.dropped, h.takes ++ [v], h.late, own⟩ := by
  obtain ⟨hkept, ⟨older, hpushes, hdropped⟩, hnodup⟩ := hf
  refine ⟨?_, ⟨older ++ [v], ?_, fun i hi => ?_⟩, hnodup⟩
  · rw [List.append_assoc]
    exact hkept
  · rw [List.append_assoc]
    exact hpushes
  · have := hdropped i hi
    rw [List.length_append]
    omega

omit [DecidableEq τ] in
theorem Fifo.empty (hf : Fifo data h) (own : τ → Account α) :
    Fifo [] ⟨h.pushes, h.dropped ++ List.range' (h.pushes.length - data.length) data.length, h.takes, h.late, own⟩ := by
  obtain ⟨hkept, ⟨older, hpushes, hdropped⟩, hnodup⟩ := hf
  have hstart : h.pushes.length - data.length = older.length := by rw [hpushes, List.length_append]; omega
  rw [hstart]
  refine ⟨?_, ⟨h.pushes, (List.append_nil _).symm, fun i hi => ?_⟩, ?_⟩
  · dsimp only
    rw [hpushes, kept_drop_rest, List.append_nil]
    rw [hpushes, kept_append, keptFrom_all data hdropped] at hkept
    exact List.append_cancel_right hkept
  · dsimp only at hi ⊢
    rw [hpushes, List.length_append]
    rcases List.mem_append.mp hi with hi | hi
    · have := hdropped i hi
      omega
    · have := (List.mem_range'_1.mp hi).2
      omega
  · refine List.nodup_append.mpr ⟨hnodup, List.nodup_range', ?_⟩
    rintro i hi j hj rfl
    have := hdropped i hi
    have := (List.mem_range'_1.mp hj).1
    omega

end Fifo

section Record

-- What the history says about the calls is the same whatever was observed.
theorem own_record (h : History τ α) (s : State τ α ε) (t : τ) (ev : Event α ε) (s' : State τ α ε) (t' : τ) (hne : t' ≠ t) :
    (h.record s t ev s').own t' = h.own t' := by
  unfold History.record
  dsimp only
  split <;> exact Function.update_of_ne hne _ _

theorem own_record_self (h : History τ α) (s : State τ α ε) (t : τ) (ev : Event α ε) (s' : State τ α ε) :
    (h.record s t ev s').own t =
      ⟨(match s.tasks t with | .idle => ⟨0, []⟩ | _ => h.own t : Account α).avail + (s'.n_avail_items - s.n_avail_items),
        (match s.tasks t with | .idle => ⟨0, []⟩ | _ => h.own t : Account α).writes ++ [(s.data, s'.data)]⟩ := by
  unfold History.record
  dsimp only
  split <;> exact Function.update_self _ _ _

-- A step of a put that leaves the data alone changes the counter by what the put counts for.
theorem Effect.own (heff : Effect s t ev s') (hdata : s'.data = s.data)
    (hput : (s.tasks t).inPut = true ∨ s.tasks t = .idle)
    (hown : (s.tasks t).inPut = true → (h.own t).avail = (s.tasks t).offer ∧ ∀ p ∈ (h.own t).writes, p.1 = p.2) :
    ((h.record s t ev s').own t).avail = (s'.tasks t).offer ∧ ∀ p ∈ ((h.record s t ev s').own t).writes, p.1 = p.2 := by
  have havail := heff.avail_eq
  have hbefore : (match s.tasks t with | .idle => ⟨0, []⟩ | _ => h.own t : Account α).avail = (s.tasks t).offer ∧
      ∀ p ∈ (match s.tasks t with | .idle => ⟨0, []⟩ | _ => h.own t : Account α).writes, p.1 = p.2 := by
    split
    · rename_i hidle
      rw [hidle]
      exact ⟨rfl, by simp⟩
    · rename_i hidle
      rcases hput with hput | hput
      · exact hown hput
      · exact absurd hput hidle
  obtain ⟨hsum, hwrites⟩ := hbefore
  rw [own_record_self]
  refine ⟨?_, fun p hp => ?_⟩
  · rw [hdata] at havail
    dsimp only
    omega
  · rcases List.mem_append.mp hp with hp | hp
    · exact hwrites p hp
    · rw [List.mem_singleton.mp hp]
      exact hdata.symm

omit [DecidableEq τ] in
-- Only a step that ends a call is observed.
theorem not_silent_of_observe (hobserve : observe (s.tasks t) ev ≠ .nothing) : ev ≠ .silent := by
  rintro rfl
  exact hobserve (observe_silent _)

end Record

section Invariant

omit [DecidableEq τ] in
theorem good_init (k : ℕ) : Good k (State.init k : State τ α ε) History.init := by
  refine ⟨rfl, ⟨rfl, ⟨[], rfl, by simp [History.init]⟩, List.nodup_nil⟩, Nat.zero_le _, ⟨∅, ?_, rfl⟩, rfl, ?_, ?_⟩
  · simp [State.init, Pc.offering]
  · simp [State.init, Pc.inPut]
  · simp [State.init]

theorem Good.fifo_step (hg : Good k s h) (heff : Effect s t ev s') : Fifo s'.data (h.record s t ev s') := by
  unfold History.record
  rcases heff.data_change with ⟨hobserve, hdata⟩ | ⟨v, hobserve, hopen, hfull, hdata⟩ | ⟨v, hobserve, hdata⟩ | ⟨hobserve, hdata⟩
  · rw [hobserve, hdata]
    exact ⟨hg.fifo.kept_eq, hg.fifo.last, hg.fifo.nodup⟩
  · rw [hobserve, hdata]
    exact hg.fifo.push v _ _
  · rw [hobserve]
    exact (hdata ▸ hg.fifo).take _
  · rw [hobserve, hdata]
    exact hg.fifo.empty _

omit [DecidableEq τ] in
theorem Good.bounded_step (hg : Good k s h) (heff : Effect s t ev s') : s'.data.length ≤ k := by
  have hbounded := hg.bounded
  rcases heff.data_change with ⟨-, hdata⟩ | ⟨v, -, -, hfull, hdata⟩ | ⟨v, -, hdata⟩ | ⟨-, hdata⟩
  · rw [hdata]
    exact hbounded
  · rw [hg.size_eq] at hfull
    rw [hdata, List.length_append, List.length_singleton]
    omega
  · rw [hdata, List.length_cons] at hbounded
    omega
  · rw [hdata]
    exact Nat.zero_le k

theorem Good.counted_step (hg : Good k s h) (heff : Effect s t ev s') :
    ∃ F : Finset τ, (∀ t, t ∈ F ↔ (s'.tasks t).offering = true) ∧ s'.n_avail_items = s'.data.length + F.card := by
  obtain ⟨F, hF, hcount⟩ := hg.counted
  have havail := heff.avail_eq
  have hother : ∀ t', t' ≠ t → (t' ∈ F ↔ (s'.tasks t').offering = true) := by
    intro t' hne
    rw [hF, (heff.others t' hne).offering_eq]
  have hbefore := hF t
  unfold Pc.offer at havail
  by_cases hnow : (s'.tasks t).offering = true
  · rw [if_pos hnow] at havail
    refine ⟨insert t F, fun t' => ?_, ?_⟩
    · by_cases hne : t' = t
      · subst hne
        simp [hnow]
      · rw [Finset.mem_insert, ← hother t' hne]
        simp [hne]
    · by_cases hmem : t ∈ F
      · rw [if_pos (hbefore.mp hmem)] at havail
        rw [Finset.insert_eq_of_mem hmem]
        omega
      · rw [if_neg (fun hin => hmem (hbefore.mpr hin))] at havail
        rw [Finset.card_insert_of_notMem hmem]
        omega
  · rw [if_neg hnow] at havail
    refine ⟨F.erase t, fun t' => ?_, ?_⟩
    · by_cases hne : t' = t
      · subst hne
        simp [hnow]
      · rw [Finset.mem_erase, ← hother t' hne]
        simp [hne]
    · by_cases hmem : t ∈ F
      · rw [if_pos (hbefore.mp hmem)] at havail
        have hpos := Finset.card_pos.mpr ⟨t, hmem⟩
        rw [Finset.card_erase_of_mem hmem]
        omega
      · rw [if_neg (fun hin => hmem (hbefore.mpr hin))] at havail
        rw [Finset.erase_eq_of_notMem hmem]
        omega

theorem Good.late_step (hg : Good k s h) (heff : Effect s t ev s') : (h.record s t ev s').late = [] := by
  unfold History.record
  rcases heff.data_change with ⟨hobserve, -⟩ | ⟨v, hobserve, hopen, -, -⟩ | ⟨v, hobserve, -⟩ | ⟨hobserve, -⟩
  · rw [hobserve]
    exact hg.late
  · rw [hobserve]
    simp only [hopen, reduceCtorEq, if_false]
    exact hg.late
  · rw [hobserve]
    exact hg.late
  · rw [hobserve]
    exact hg.late

theorem Good.own_step (hg : Good k s h) (heff : Effect s t ev s') (t' : τ) (hput : (s'.tasks t').inPut = true) :
    ((h.record s t ev s').own t').avail = (s'.tasks t').offer ∧
      ∀ p ∈ ((h.record s t ev s').own t').writes, p.1 = p.2 := by
  by_cases hne : t' = t
  · subst hne
    have hdata : s'.data = s.data := by
      by_contra hchanged
      have hevent : ev ≠ .silent := by
        rcases heff.data_change with ⟨-, hdata⟩ | ⟨v, hobserve, -, -, -⟩ | ⟨v, hobserve, -⟩ | ⟨hobserve, -⟩
        · exact absurd hdata hchanged
        · exact not_silent_of_observe (by rw [hobserve]; simp)
        · exact not_silent_of_observe (by rw [hobserve]; simp)
        · exact not_silent_of_observe (by rw [hobserve]; simp)
      rw [heff.finished hevent] at hput
      cases hput
    exact heff.own hdata (heff.put_started hput) (hg.own t')
  · have hwoken := heff.others t' hne
    rw [own_record h s t ev s' t' hne, Pc.offer, hwoken.offering_eq]
    rw [hwoken.inPut_eq] at hput
    exact hg.own t' hput

theorem Good.locked_step (hg : Good k s h) (heff : Effect s t ev s') (t' : τ) :
    s'.lock = some t' ↔ ∃ sec, s'.tasks t' = .holding sec := by
  have hother : ∀ t', t' ≠ t → ((∃ sec, s'.tasks t' = .holding sec) ↔ ∃ sec, s.tasks t' = .holding sec) := fun t' hne =>
    exists_congr fun sec => (heff.others t' hne).holding_iff sec
  rcases heff.lock_change with ⟨sec, hbefore, hlock, hafter⟩ | ⟨hlock, hbefore, hafter⟩ | ⟨sec, hfree, hlock, hafter⟩
  · have hself := (hg.locked t).mpr ⟨sec, hbefore⟩
    rw [hlock]
    refine ⟨fun h => (by cases h), fun hsec => ?_⟩
    by_cases hne : t' = t
    · subst hne
      obtain ⟨sec, hsec⟩ := hsec
      exact absurd hsec (hafter sec)
    · rw [hother t' hne, ← hg.locked t', hself] at hsec
      exact absurd (Option.some.inj hsec).symm hne
  · rw [hlock]
    by_cases hne : t' = t
    · subst hne
      rw [hg.locked]
      exact ⟨fun ⟨sec, hsec⟩ => absurd hsec (hbefore sec), fun ⟨sec, hsec⟩ => absurd hsec (hafter sec)⟩
    · rw [hother t' hne]
      exact hg.locked t'
  · rw [hlock]
    by_cases hne : t' = t
    · subst hne
      exact ⟨fun _ => ⟨sec, hafter⟩, fun _ => rfl⟩
    · rw [hother t' hne, ← hg.locked t', hfree]
      simp only [reduceCtorEq, iff_false]
      exact fun heq => hne (Option.some.inj heq).symm

theorem Run.good (hrun : Run k s h) : Good k s h := by
  induction hrun with
  | init => exact good_init k
  | step hrun hstep ih =>
      have heff := hstep.effect
      exact ⟨heff.size_eq.trans ih.size_eq, ih.fifo_step heff, ih.bounded_step heff, ih.counted_step heff,
        ih.late_step heff, ih.own_step heff, ih.locked_step heff⟩

end Invariant

end Joolia.Channels
