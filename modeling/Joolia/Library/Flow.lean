import Mathlib.Data.List.Basic
import Mathlib.Logic.Relation

namespace Flow

open Relation

variable {α : Type*}

-- A walk from `a` to `b`, with the vertices it visits.
inductive Walk (E : α → α → Prop) : α → α → List α → Prop
  | nil (a : α) : Walk E a a [a]
  | cons {a b c : α} {l : List α} : E a b → Walk E b c l → Walk E a c (a :: l)

-- Every walk from the root `r` to `w` passes `d`.
def Dominates (E : α → α → Prop) (r d w : α) : Prop := ∀ l, Walk E r w l → d ∈ l

-- Walking on through vertices with a property only.
def Via (E : α → α → Prop) (P : α → Prop) : α → α → Prop := ReflTransGen fun x y => E x y ∧ P y

theorem Via.mono {E : α → α → Prop} {P Q : α → Prop} (hPQ : ∀ x, P x → Q x) {a b : α} (h : Via E P a b) :
    Via E Q a b :=
  ReflTransGen.mono (fun _ _ hxy => ⟨hxy.1, hPQ _ hxy.2⟩) a b h

theorem Walk.via {E : α → α → Prop} {a b : α} {l : List α} (h : Walk E a b l) :
    Via E (· ∈ l) a b := by
  induction h with
  | nil a => exact .refl
  | @cons a b c l hab hwalk ih =>
      have hmem : b ∈ l := by
        cases hwalk with
        | nil => exact List.mem_singleton_self b
        | cons _ _ => exact List.mem_cons_self
      exact .head ⟨hab, List.mem_cons_of_mem a hmem⟩ (ih.mono fun x hx => List.mem_cons_of_mem a hx)

theorem Walk.of_via {E : α → α → Prop} {P : α → Prop} {a b : α} (h : Via E P a b) :
    ∃ l, Walk E a b l ∧ ∀ x ∈ l, x = a ∨ P x := by
  induction h using ReflTransGen.head_induction_on with
  | refl => exact ⟨[b], .nil b, fun x hx => .inl (List.mem_singleton.1 hx)⟩
  | head hac _ ih =>
      obtain ⟨l, hwalk, hl⟩ := ih
      refine ⟨_, .cons hac.1 hwalk, fun x hx => ?_⟩
      rcases List.mem_cons.1 hx with rfl | hx
      · exact .inl rfl
      · rcases hl x hx with rfl | hPx
        · exact .inr hac.2
        · exact .inr hPx

theorem Walk.snoc {E : α → α → Prop} {a b c : α} {l : List α} (h : Walk E a b l) (hbc : E b c) : Walk E a c (l ++ [c]) := by
  induction h with
  | nil a => exact .cons hbc (.nil c)
  | cons hab _ ih => exact .cons hab (ih hbc)

-- A walk back along reversed edges.
theorem Walk.reverse {E F : α → α → Prop} {a b : α} {l : List α} (h : Walk E a b l) (hEF : ∀ x y, E x y → F y x) :
    Walk F b a l.reverse := by
  induction h with
  | nil a => exact .nil a
  | @cons a b c l hab _ ih =>
      rw [List.reverse_cons]
      exact ih.snoc (hEF _ _ hab)

-- A walk stays where its edges lead.
theorem Walk.mem_of_closed {E : α → α → Prop} {P : α → Prop} {a b : α} {l : List α} (h : Walk E a b l) (ha : P a)
    (hstep : ∀ x y, E x y → P y) : ∀ x ∈ l, P x := by
  induction h with
  | nil a => simpa using ha
  | cons hab _ ih =>
      rintro x (_ | ⟨_, hx⟩)
      · exact ha
      · exact ih (hstep _ _ hab) x hx

-- The part of a walk up to a vertex on it.
theorem Walk.upTo {E : α → α → Prop} {a b i : α} {l : List α} (h : Walk E a b l) (hi : i ∈ l) :
    ∃ l', Walk E a i l' ∧ l' ⊆ l := by
  induction h with
  | nil a =>
      obtain rfl := List.mem_singleton.1 hi
      exact ⟨[i], .nil i, List.Subset.refl _⟩
  | @cons a b c l hab _ ih =>
      rcases List.mem_cons.1 hi with rfl | hi
      · exact ⟨[i], .nil i, by simp⟩
      · obtain ⟨l', hwalk, hsub⟩ := ih hi
        exact ⟨a :: l', .cons hab hwalk, List.cons_subset_cons a hsub⟩

-- A vertex dominates unless it can be avoided.
theorem dominates_iff {E : α → α → Prop} {r d w : α} :
    Dominates E r d w ↔ ¬(r ≠ d ∧ Via E (· ≠ d) r w) := by
  constructor
  · rintro hdom ⟨hrd, hvia⟩
    obtain ⟨l, hwalk, hl⟩ := Walk.of_via hvia
    rcases hl d (hdom l hwalk) with heq | hne
    · exact hrd heq.symm
    · exact hne rfl
  · intro hno l hwalk
    by_contra hd
    refine hno ⟨?_, hwalk.via.mono fun x hx (heq : x = d) => hd (heq ▸ hx)⟩
    rintro rfl
    cases hwalk with
    | nil => exact hd (List.mem_singleton_self r)
    | cons _ _ => exact hd List.mem_cons_self

theorem dominates_self {E : α → α → Prop} (r w : α) : Dominates E r w w := by
  rw [dominates_iff]
  rintro ⟨hrw, hvia⟩
  rcases hvia.cases_tail with rfl | ⟨c, _, _, hne⟩
  · exact hrw rfl
  · exact hne rfl

theorem dominates_trans {E : α → α → Prop} {r d i w : α} (hdi : Dominates E r d i)
    (hiw : Dominates E r i w) : Dominates E r d w := by
  intro l hwalk
  obtain ⟨l', hwalk', hsub⟩ := hwalk.upTo (hiw l hwalk)
  exact hsub (hdi l' hwalk')

-- `i` is the immediate dominator of `w`: it strictly dominates `w`, and every strict
-- dominator of `w` dominates `i`.
structure Idom (E : α → α → Prop) (r i w : α) : Prop where
  ne : i ≠ w
  dominates : Dominates E r i w
  least : ∀ d, d ≠ w → Dominates E r d w → Dominates E r d i

end Flow
