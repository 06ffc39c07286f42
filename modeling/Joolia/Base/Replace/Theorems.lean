import Joolia.Base.Dict.Theorems
import Joolia.Base.Replace

namespace Joolia.Replace

open Hashtable Probing Bitset Words

-- What is left of the elements `E` when `xs` are removed and their images inserted. An image takes the place of what is
-- the same to it, be it an element or another image.
structure Substituted {α : Type} (same : α → α → Bool) (new : α → α) (xs E E' : List α) : Prop where
  image_or_kept : ∀ a ∈ E', a ∈ xs.map new ∨ (a ∈ E ∧ a ∉ xs ∧ ∀ x ∈ xs, same (new x) a = false)
  images : ∀ x ∈ xs, ∃ a ∈ E', same (new x) a = true
  kept : ∀ a ∈ E, a ∉ xs → (∀ x ∈ xs, same (new x) a = false) → a ∈ E'
  distinct : E'.Pairwise fun a b => same a b = false

section Tables

variable {K V : Type} [Key K] {new : K × V → K × V}

-- The images that wait until the end of the loop: those with another key
def moved (new : K × V → K × V) (xs : List (K × V)) : List (K × V) :=
  (xs.filter fun x => !Key.isequal x.1 (new x).1).map new

-- The entries of the table after the loop
def Looped (new : K × V → K × V) (xs E E' : List (K × V)) : Prop :=
  ∀ a, a ∈ E' ↔ (a ∈ E ∧ a ∉ xs) ∨ ∃ x ∈ xs, Key.isequal x.1 (new x).1 = true ∧ a = new x

-- What a later pass replaces, an earlier one has not written.
theorem Looped.cons [LawfulKey K] {a : K × V} {xs E E1 E2 : List (K × V)} (hfirst : Looped new [a] E E1)
    (hrest : Looped new xs E1 E2) (hsep : Key.isequal a.1 (new a).1 = true → new a ∉ xs) : Looped new (a :: xs) E E2 := by
  intro b
  have hb := hfirst b
  simp only [List.mem_singleton, exists_eq_left] at hb
  rw [hrest b, hb]
  simp only [List.mem_cons, exists_eq_or_imp]
  constructor
  · rintro (⟨⟨hin, hne⟩ | himage, hout⟩ | hlater)
    · exact .inl ⟨hin, fun h => h.elim hne hout⟩
    · exact .inr (.inl himage)
    · exact .inr (.inr hlater)
  · rintro (⟨hin, hout⟩ | ⟨heq, rfl⟩ | hlater)
    · exact .inl ⟨.inl ⟨hin, fun h => hout (.inl h)⟩, fun h => hout (.inr h)⟩
    · exact .inl ⟨.inr ⟨heq, rfl⟩, hsep heq⟩
    · exact .inr hlater

variable [DecidableEq K] [DecidableEq V]

omit [Key K] [DecidableEq K] [DecidableEq V] in
theorem mem_keys {l : List (K × Unit)} {k : K} : k ∈ l.map Prod.fst ↔ (k, ()) ∈ l := by
  rw [List.mem_map]
  constructor
  · rintro ⟨⟨k', u⟩, hmem, rfl⟩
    exact hmem
  · exact fun hmem => ⟨(k, ()), hmem, rfl⟩

omit [DecidableEq K] in
theorem Substituted.keys {new' : K × Unit → K × Unit} {new : K → K} (h : ∀ kv, new' kv = (new kv.1, ()))
    {xs E E' : List (K × Unit)} (hsub : Substituted (fun a b => Key.isequal a.1 b.1) new' xs E E') :
    Substituted Key.isequal new (xs.map Prod.fst) (E.map Prod.fst) (E'.map Prod.fst) where
  image_or_kept a ha := by
    rcases hsub.image_or_kept (a, ()) (mem_keys.mp ha) with himage | ⟨hin, hout, hall⟩
    · obtain ⟨x, hx, heq⟩ := List.mem_map.mp himage
      rw [h] at heq
      left
      rw [List.map_map]
      exact List.mem_map.mpr ⟨x, hx, congrArg Prod.fst heq⟩
    · refine .inr ⟨mem_keys.mpr hin, fun hmem => hout (mem_keys.mp hmem), fun x hx => ?_⟩
      have hx' := hall (x, ()) (mem_keys.mp hx)
      rwa [h] at hx'
  images x hx := by
    obtain ⟨a, ha, heq⟩ := hsub.images (x, ()) (mem_keys.mp hx)
    rw [h] at heq
    exact ⟨a.1, List.mem_map_of_mem ha, heq⟩
  kept a ha hout hall := by
    refine mem_keys.mpr (hsub.kept (a, ()) (mem_keys.mp ha) (fun hmem => hout (mem_keys.mpr hmem)) fun x hx => ?_)
    rw [h]
    exact hall x.1 (List.mem_map_of_mem hx)
  distinct := List.pairwise_map.mpr hsub.distinct

end Tables

-- `new` as a function, or the pairs `old => new`
inductive Substitution (α : Type)
  | callable (f : α → α)
  | pairs (isequal : α → α → Bool) (old_new : List (α × α))

def Substitution.new {α : Type} : Substitution α → α → α
  | .callable f => f
  | .pairs isequal old_new => lookup isequal old_new

-- A call of `replace`, with the collection and what its memory may hold
inductive Call (α K V : Type) [Key K]
  | tuple (f : Substitution α) (t : List α)
  | array (f : Substitution α) (mem : ℕ → α) (A : List α)
  | bitset (f : Substitution ℤ) (mem : ℕ → Word) (A : BitSet) (hA : Bitset.Inv A) (hf : ∀ x ∈ members A, isConvertibleInt (f.new x))
  | dict (f : Substitution (K × V)) (d : Dict K V) (hd : ∃ t, Hashtable.Inv d t)
  | set (f : Substitution K) (s : Dict K Unit) (hs : ∃ t, Hashtable.Inv s t)

section Calls

variable {α K V : Type} [Key K] [DecidableEq α] [DecidableEq K] [DecidableEq V]

end Calls

section Failures

end Failures

end Joolia.Replace
