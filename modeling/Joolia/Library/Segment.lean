import Mathlib.Data.List.Basic
import Mathlib.Data.List.Perm.Basic
import Mathlib.Data.List.TakeDrop
import Mathlib.Logic.Function.Basic
import Mathlib.Tactic.TypeStar

namespace Segment

variable {α : Type*} {v w u : List α} {lo n m i : ℕ}

-- The `n` elements from position `lo` on.
def seg (v : List α) (lo n : ℕ) : List α := (v.drop lo).take n

theorem length_seg (h : lo + n ≤ v.length) : (seg v lo n).length = n := by
  rw [seg, List.length_take, List.length_drop]
  omega

theorem getElem?_seg (hi : i < n) : (seg v lo n)[i]? = v[lo + i]? := by
  rw [seg, List.getElem?_take_of_lt hi, List.getElem?_drop]

@[simp] theorem seg_zero (v : List α) (lo : ℕ) : seg v lo 0 = [] := by rw [seg, List.take_zero]

theorem seg_add (v : List α) (lo n m : ℕ) : seg v lo (n + m) = seg v lo n ++ seg v (lo + n) m := by
  rw [seg, seg, seg, List.take_add, List.drop_drop]

theorem seg_one (h : lo < v.length) : seg v lo 1 = [v[lo]] := by
  rw [seg, List.drop_eq_getElem_cons h, List.take_succ_cons, List.take_zero]

theorem seg_succ (h : lo + n < v.length) : seg v lo (n + 1) = seg v lo n ++ [v[lo + n]] := by
  rw [seg_add, seg_one h]

theorem seg_cons (h : lo < v.length) : seg v lo (n + 1) = v[lo] :: seg v (lo + 1) n := by
  rw [Nat.add_comm n 1, seg_add, seg_one h, List.singleton_append]

theorem seg_full (v : List α) : seg v 0 v.length = v := by rw [seg, List.drop_zero, List.take_length]

-- Segments are equal when their elements are.
theorem seg_congr {lo' : ℕ} (h : ∀ i < n, v[lo + i]? = w[lo' + i]?) : seg v lo n = seg w lo' n := by
  refine List.ext_getElem? fun i => ?_
  by_cases hi : i < n
  · rw [getElem?_seg hi, getElem?_seg hi, h i hi]
  · have hnone : ∀ (u : List α) (k : ℕ), (seg u k n)[i]? = none := fun u k =>
      List.getElem?_eq_none (by rw [seg, List.length_take]; omega)
    rw [hnone, hnone]

theorem seg_eq_iff {L : List α} (h : lo + L.length ≤ v.length) :
    seg v lo L.length = L ↔ ∀ i < L.length, v[lo + i]? = L[i]? := by
  constructor
  · intro heq i hi
    rw [← getElem?_seg hi, heq]
  · intro hall
    refine List.ext_getElem? fun i => ?_
    by_cases hi : i < L.length
    · rw [getElem?_seg hi, hall i hi]
    · rw [List.getElem?_eq_none (by rw [length_seg h]; omega), List.getElem?_eq_none (by omega)]

theorem mem_seg {x : α} (h : lo + n ≤ v.length) : x ∈ seg v lo n ↔ ∃ i, ∃ hi : i < v.length, lo ≤ i ∧ i < lo + n ∧ v[i] = x := by
  constructor
  · intro hx
    obtain ⟨i, hi, rfl⟩ := List.getElem_of_mem hx
    rw [length_seg h] at hi
    refine ⟨lo + i, by omega, by omega, by omega, ?_⟩
    simp [seg]
  · rintro ⟨i, hi, hlo, hhi, rfl⟩
    have hget : (seg v lo n)[i - lo]? = some v[i] := by
      rw [getElem?_seg (by omega), show lo + (i - lo) = i by omega, List.getElem?_eq_getElem hi]
    exact List.mem_of_getElem? hget

-- Nothing changes outside of the `n` elements from position `lo` on.
structure SameOutside (lo n : ℕ) (v w : List α) : Prop where
  length : w.length = v.length
  get : ∀ i, i < lo ∨ lo + n ≤ i → w[i]? = v[i]?

namespace SameOutside

theorem refl (lo n : ℕ) (v : List α) : SameOutside lo n v v := ⟨rfl, fun _ _ => rfl⟩

theorem trans (h : SameOutside lo n v w) (h' : SameOutside lo n w u) : SameOutside lo n v u :=
  ⟨h'.length.trans h.length, fun i hi => (h'.get i hi).trans (h.get i hi)⟩

theorem widen {lo' n' : ℕ} (h : SameOutside lo n v w) (hlo : lo' ≤ lo) (hhi : lo + n ≤ lo' + n') : SameOutside lo' n' v w :=
  ⟨h.length, fun i hi => h.get i (by omega)⟩

theorem set (hlo : lo ≤ i) (hhi : i < lo + n) (x : α) : SameOutside lo n v (v.set i x) :=
  ⟨List.length_set, fun j hj => List.getElem?_set_ne (by omega)⟩

-- A segment beside the changed one is the same.
theorem seg_eq {lo' n' : ℕ} (h : SameOutside lo n v w) (hdisjoint : lo' + n' ≤ lo ∨ lo + n ≤ lo') : seg w lo' n' = seg v lo' n' :=
  seg_congr fun i hi => h.get (lo' + i) (by omega)

end SameOutside

-- Some elements change places, within the segment.
structure Rearranged (lo n : ℕ) (v w : List α) : Prop where
  outside : SameOutside lo n v w
  perm : (seg w lo n).Perm (seg v lo n)

namespace Rearranged

theorem refl (lo n : ℕ) (v : List α) : Rearranged lo n v v := ⟨.refl lo n v, .refl _⟩

theorem trans (h : Rearranged lo n v w) (h' : Rearranged lo n w u) : Rearranged lo n v u :=
  ⟨h.outside.trans h'.outside, h'.perm.trans h.perm⟩

theorem widen {lo' n' : ℕ} (h : Rearranged lo n v w) (hlo : lo' ≤ lo) (hhi : lo + n ≤ lo' + n') : Rearranged lo' n' v w := by
  refine ⟨h.outside.widen hlo hhi, ?_⟩
  have hsplit : n' = (lo - lo') + (n + (lo' + n' - (lo + n))) := by omega
  have hbefore : seg w lo' (lo - lo') = seg v lo' (lo - lo') := h.outside.seg_eq (.inl (by omega))
  have hafter : seg w (lo + n) (lo' + n' - (lo + n)) = seg v (lo + n) (lo' + n' - (lo + n)) := h.outside.seg_eq (.inr (Nat.le_refl _))
  rw [hsplit, seg_add, seg_add, seg_add, seg_add, show lo' + (lo - lo') = lo by omega, hbefore, hafter]
  exact List.Perm.append_left _ (h.perm.append_right _)

theorem length (h : Rearranged lo n v w) : w.length = v.length := h.outside.length

-- A rearrangement of the whole list that leaves the rest as it is
theorem of_perm (houtside : SameOutside lo n v w) (hfit : lo + n ≤ v.length) (hperm : w.Perm v) : Rearranged lo n v w := by
  refine ⟨houtside, ?_⟩
  have hsplit : v.length = lo + (n + (v.length - (lo + n))) := by omega
  have hbefore : seg w 0 lo = seg v 0 lo := houtside.seg_eq (.inl (by omega))
  have hafter : seg w (lo + n) (v.length - (lo + n)) = seg v (lo + n) (v.length - (lo + n)) :=
    houtside.seg_eq (.inr (Nat.le_refl _))
  have hw : w = seg v 0 lo ++ (seg w lo n ++ seg v (lo + n) (v.length - (lo + n))) := by
    conv_lhs => rw [← seg_full w, houtside.length, hsplit, seg_add, seg_add, Nat.zero_add, hbefore, hafter]
  have hv : v = seg v 0 lo ++ (seg v lo n ++ seg v (lo + n) (v.length - (lo + n))) := by
    conv_lhs => rw [← seg_full v, hsplit, seg_add, seg_add, Nat.zero_add]
  have hcancel : (seg v 0 lo ++ (seg w lo n ++ seg v (lo + n) (v.length - (lo + n)))).Perm
      (seg v 0 lo ++ (seg v lo n ++ seg v (lo + n) (v.length - (lo + n)))) := by rwa [← hw, ← hv]
  exact (List.perm_append_right_iff _).1 ((List.perm_append_left_iff _).1 hcancel)

-- The whole list is rearranged.
theorem perm_all (h : Rearranged lo n v w) (hfit : lo + n ≤ v.length) : w.Perm v := by
  have hall : Rearranged 0 v.length v w := h.widen (Nat.zero_le _) (by omega)
  have hperm := hall.perm
  rwa [seg_full, ← h.length, seg_full] at hperm

end Rearranged

section Overwriting

-- The list with `u` in the place of the elements from position `lo` on.
def overwrite (v : List α) (lo : ℕ) (u : List α) : List α := v.take lo ++ (u ++ v.drop (lo + u.length))

theorem length_overwrite (h : lo + u.length ≤ v.length) : (overwrite v lo u).length = v.length := by
  rw [overwrite, List.length_append, List.length_append, List.length_take, List.length_drop]
  omega

@[simp] theorem overwrite_nil (v : List α) (lo : ℕ) : overwrite v lo [] = v := by
  rw [overwrite, List.nil_append, List.length_nil, Nat.add_zero, List.take_append_drop]

theorem overwrite_full (h : u.length = v.length) : overwrite v 0 u = u := by
  rw [overwrite, List.take_zero, List.nil_append, List.drop_of_length_le (by omega), List.append_nil]

-- A list in three parts, the middle one of which is replaced.
theorem overwrite_append (a b c : List α) (h : b.length = u.length) : overwrite (a ++ (b ++ c)) a.length u = a ++ (u ++ c) := by
  rw [overwrite, List.take_left, ← h, ← List.drop_drop, List.drop_left, List.drop_left]

-- Neighbouring parts are overwritten at once.
theorem overwrite_overwrite (h : lo + u.length + w.length ≤ v.length) :
    overwrite (overwrite v lo u) (lo + u.length) w = overwrite v lo (u ++ w) := by
  have hlen : (v.take lo ++ u).length = lo + u.length := by
    rw [List.length_append, List.length_take, Nat.min_eq_left (by omega)]
  have hsplit : v.drop (lo + u.length) = seg v (lo + u.length) w.length ++ v.drop (lo + u.length + w.length) :=
    calc
      v.drop (lo + u.length) = seg v (lo + u.length) w.length ++ (v.drop (lo + u.length)).drop w.length :=
        (List.take_append_drop w.length (v.drop (lo + u.length))).symm
      _ = seg v (lo + u.length) w.length ++ v.drop (lo + u.length + w.length) :=
        congrArg (seg v (lo + u.length) w.length ++ ·) List.drop_drop
  have hseg : (seg v (lo + u.length) w.length).length = w.length := length_seg h
  calc
    overwrite (overwrite v lo u) (lo + u.length) w =
        overwrite ((v.take lo ++ u) ++ (seg v (lo + u.length) w.length ++ v.drop (lo + u.length + w.length)))
          (v.take lo ++ u).length w := by rw [hlen, overwrite.eq_def v, hsplit, List.append_assoc]
    _ = (v.take lo ++ u) ++ (w ++ v.drop (lo + u.length + w.length)) := overwrite_append _ _ _ hseg
    _ = overwrite v lo (u ++ w) := by rw [overwrite, List.length_append, List.append_assoc, List.append_assoc, Nat.add_assoc]

theorem seg_overwrite (h : lo + u.length ≤ v.length) : seg (overwrite v lo u) lo u.length = u := by
  have hlen : (v.take lo).length = lo := by rw [List.length_take, Nat.min_eq_left (by omega)]
  rw [seg, overwrite, List.drop_left' hlen, List.take_left]

theorem getElem?_overwrite (h : lo + u.length ≤ v.length) :
    (overwrite v lo u)[i]? = if lo ≤ i ∧ i < lo + u.length then u[i - lo]? else v[i]? := by
  have hlen : (v.take lo).length = lo := by rw [List.length_take, Nat.min_eq_left (by omega)]
  rw [overwrite]
  rcases Nat.lt_or_ge i lo with hbefore | hge
  · rw [List.getElem?_append_left (by omega), List.getElem?_take_of_lt hbefore, if_neg (by omega)]
  · rw [List.getElem?_append_right (by omega), hlen]
    rcases Nat.lt_or_ge i (lo + u.length) with hin | hafter
    · rw [List.getElem?_append_left (by omega), if_pos ⟨hge, hin⟩]
    · rw [List.getElem?_append_right (by omega), List.getElem?_drop, if_neg (by omega)]
      exact congrArg (v[·]?) (by omega)

theorem sameOutside_overwrite (h : lo + u.length ≤ v.length) : SameOutside lo u.length v (overwrite v lo u) := by
  refine ⟨length_overwrite h, fun i hi => ?_⟩
  rw [getElem?_overwrite h, if_neg (by omega)]

theorem seg_seg {lo' n' : ℕ} (h : lo' + n' ≤ n) : seg (seg v lo n) lo' n' = seg v (lo + lo') n' :=
  seg_congr fun i hi => by rw [getElem?_seg (by omega), Nat.add_assoc]

-- A part of a segment is overwritten.
theorem seg_overwrite_inside {lo' : ℕ} (hfit : lo + n ≤ v.length) (h : lo' + u.length ≤ n) :
    seg (overwrite v (lo + lo') u) lo n = overwrite (seg v lo n) lo' u := by
  have hlen : (seg v lo n).length = n := length_seg hfit
  refine List.ext_getElem? fun i => ?_
  rw [getElem?_overwrite (by omega)]
  rcases Nat.lt_or_ge i n with hi | hi
  · rw [getElem?_seg hi, getElem?_overwrite (by omega), getElem?_seg hi]
    exact if_congr (by omega) (congrArg (u[·]?) (by omega)) rfl
  · have hout : (seg (overwrite v (lo + lo') u) lo n).length = n := length_seg (by rw [length_overwrite (by omega)]; exact hfit)
    rw [if_neg (by omega), List.getElem?_eq_none (by omega), List.getElem?_eq_none (by omega)]

end Overwriting

section Rows

variable {rows : List (List α)} {s q : ℕ} {row : List α}

theorem length_flatten_rows (h : ∀ r ∈ rows, r.length = s) : rows.flatten.length = rows.length * s := by
  induction rows with
  | nil => rw [List.flatten_nil, List.length_nil, List.length_nil, Nat.zero_mul]
  | cons r rows ih =>
      rw [List.flatten_cons, List.length_append, h r List.mem_cons_self, ih fun x hx => h x (List.mem_cons_of_mem _ hx),
        List.length_cons, Nat.succ_mul, Nat.add_comm]

-- One row with the rows before it and those after it
theorem flatten_split (h : ∀ r ∈ rows, r.length = s) (hq : rows[q]? = some row) :
    rows.flatten = (rows.take q).flatten ++ (row ++ (rows.drop (q + 1)).flatten) ∧ (rows.take q).flatten.length = q * s := by
  obtain ⟨hlt, rfl⟩ := List.getElem?_eq_some_iff.1 hq
  constructor
  · conv_lhs => rw [← List.take_append_drop q rows, List.drop_eq_getElem_cons hlt]
    rw [List.flatten_append, List.flatten_cons]
  · rw [length_flatten_rows fun r hr => h r (List.mem_of_mem_take hr), List.length_take, Nat.min_eq_left (Nat.le_of_lt hlt)]

-- The rows from `q` on, and the first `q` rows
theorem flatten_drop (h : ∀ r ∈ rows, r.length = s) (q : ℕ) : (rows.drop q).flatten = rows.flatten.drop (q * s) := by
  induction rows generalizing q with
  | nil => rw [List.drop_nil, List.flatten_nil, List.drop_nil]
  | cons r rows ih =>
      cases q with
      | zero => rw [Nat.zero_mul, List.drop_zero, List.drop_zero]
      | succ q =>
          have hr : r.length = s := h r List.mem_cons_self
          rw [List.drop_succ_cons, ih fun x hx => h x (List.mem_cons_of_mem _ hx), List.flatten_cons, Nat.succ_mul,
            Nat.add_comm, ← List.drop_drop, ← hr, List.drop_left]

theorem flatten_take (h : ∀ r ∈ rows, r.length = s) (q : ℕ) : (rows.take q).flatten = rows.flatten.take (q * s) := by
  induction rows generalizing q with
  | nil => rw [List.take_nil, List.flatten_nil, List.take_nil]
  | cons r rows ih =>
      cases q with
      | zero => rw [Nat.zero_mul, List.take_zero, List.take_zero, List.flatten_nil]
      | succ q =>
          have hr : r.length = s := h r List.mem_cons_self
          rw [List.take_succ_cons, List.flatten_cons, ih fun x hx => h x (List.mem_cons_of_mem _ hx), List.flatten_cons,
            Nat.succ_mul, Nat.add_comm, ← hr, List.take_append, Nat.add_sub_cancel_left,
            List.take_of_length_le (Nat.le_add_right _ _)]

theorem flatten_seg (h : ∀ r ∈ rows, r.length = s) (q n : ℕ) : (seg rows q n).flatten = seg rows.flatten (q * s) (n * s) := by
  rw [seg, flatten_take (fun r hr => h r (List.mem_of_mem_drop hr)), flatten_drop h, seg]

theorem seg_flatten (h : ∀ r ∈ rows, r.length = s) (hq : rows[q]? = some row) (hn : lo + n ≤ s) :
    seg rows.flatten (q * s + lo) n = seg row lo n := by
  obtain ⟨hsplit, hlen⟩ := flatten_split h hq
  have hrow : row.length = s := h row (List.mem_of_getElem? hq)
  have hdrop : (row ++ (rows.drop (q + 1)).flatten).drop lo = row.drop lo ++ (rows.drop (q + 1)).flatten := by
    rw [List.drop_append_of_le_length (by omega)]
  rw [hsplit, seg, seg, ← hlen, ← List.drop_drop, List.drop_left, hdrop, List.take_append_of_le_length]
  rw [List.length_drop]
  omega

theorem flatten_set (h : ∀ r ∈ rows, r.length = s) (hq : rows[q]? = some row) (hn : lo + u.length ≤ s) :
    (rows.set q (overwrite row lo u)).flatten = overwrite rows.flatten (q * s + lo) u := by
  obtain ⟨hsplit, hlen⟩ := flatten_split h hq
  have hrow : row.length = s := h row (List.mem_of_getElem? hq)
  obtain ⟨hlt, -⟩ := List.getElem?_eq_some_iff.1 hq
  have htake : ((rows.take q).flatten ++ row.take lo).length = q * s + lo := by
    rw [List.length_append, hlen, List.length_take, Nat.min_eq_left (by omega)]
  have hmid : row = row.take lo ++ (seg row lo u.length ++ row.drop (lo + u.length)) := by
    rw [seg, ← List.drop_drop, List.take_append_drop, List.take_append_drop]
  have hset : rows.set q (overwrite row lo u) = rows.take q ++ overwrite row lo u :: rows.drop (q + 1) :=
    List.set_eq_take_append_cons_drop.trans (if_pos hlt)
  rw [hset, List.flatten_append, List.flatten_cons, hsplit]
  calc
    (rows.take q).flatten ++ (overwrite row lo u ++ (rows.drop (q + 1)).flatten) =
        ((rows.take q).flatten ++ row.take lo) ++ (u ++ (row.drop (lo + u.length) ++ (rows.drop (q + 1)).flatten)) := by
      rw [overwrite, List.append_assoc, List.append_assoc, List.append_assoc]
    _ = overwrite (((rows.take q).flatten ++ row.take lo) ++
          (seg row lo u.length ++ (row.drop (lo + u.length) ++ (rows.drop (q + 1)).flatten)))
          ((rows.take q).flatten ++ row.take lo).length u :=
      (overwrite_append _ _ _ (length_seg (by omega))).symm
    _ = overwrite ((rows.take q).flatten ++ (row ++ (rows.drop (q + 1)).flatten)) (q * s + lo) u := by
      conv_rhs => rw [hmid]
      rw [htake, List.append_assoc, List.append_assoc, List.append_assoc]

end Rows

end Segment

-- Vectors whose element with the number `i` is stored at the index `i - 1`.
namespace OneBased

variable {α : Type*}

-- `xs[i-1]`; `none` is a `BoundsError`.
def read (xs : List α) (i : ℕ) : Option α := if i = 0 then none else xs[i - 1]?

-- `xs[i-1] = x`
def write (xs : List α) (i : ℕ) (x : α) : Option (List α) :=
  if i = 0 ∨ xs.length < i then none else some (xs.set (i - 1) x)

-- `resize!(xs, n)`; the new elements, which are undefined, get the default value.
def resize [Inhabited α] (xs : List α) (n : ℕ) : List α :=
  xs.take n ++ List.replicate (n - xs.length) default

-- The element with the number `i`, in a form for specifications.
def val [Inhabited α] (xs : List α) (i : ℕ) : α := (read xs i).getD default

section Read

variable [Inhabited α]

@[simp] theorem val_zero (xs : List α) : val xs 0 = default := rfl

theorem read_eq {l : List α} {i : ℕ} (hi : 0 < i) (hle : i ≤ l.length) : read l i = some (val l i) := by
  have hget : l[i - 1]? = some (l.get ⟨i - 1, by omega⟩) := by simp
  simp [val, read, Nat.pos_iff_ne_zero.1 hi, hget]

theorem val_eq_default {xs : List α} {i : ℕ} (h : i = 0 ∨ xs.length < i) : val xs i = default := by
  rcases h with rfl | h
  · rfl
  · have hnone : xs[i - 1]? = none := List.getElem?_eq_none (by omega)
    simp [val, read, show i ≠ 0 by omega, hnone]

theorem val_succ (xs : List α) (i : ℕ) : val xs (i + 1) = xs.getD i default := by
  simp [val, read]

theorem ext_val {xs ys : List α} (hlen : xs.length = ys.length)
    (h : ∀ i, 0 < i → i ≤ xs.length → val xs i = val ys i) : xs = ys := by
  refine List.ext_getElem hlen fun i hi hi' => ?_
  have := h (i + 1) (by omega) (by omega)
  simpa [val_succ, hi, hi'] using this

-- One write: it succeeds within the bounds and changes the one element.
theorem write_spec {l : List α} {i : ℕ} (hi : 0 < i) (hle : i ≤ l.length) (x : α) :
    ∃ ys, write l i x = some ys ∧ ys.length = l.length ∧ val ys = Function.update (val l) i x := by
  refine ⟨l.set (i - 1) x, by simp [write]; omega, by simp, ?_⟩
  funext j
  by_cases hj : j = i
  · subst hj
    have hset : (l.set (j - 1) x)[j - 1]? = some x := List.getElem?_set_self (by omega)
    simp [val, read, Nat.pos_iff_ne_zero.1 hi, hset]
  · rw [Function.update_of_ne hj]
    by_cases hj0 : j = 0
    · subst hj0
      rfl
    · have hset : (l.set (i - 1) x)[j - 1]? = l[j - 1]? := List.getElem?_set_ne (by omega)
      simp [val, read, hj0, hset]

@[simp] theorem length_resize (xs : List α) (n : ℕ) : (resize xs n).length = n := by
  simp [resize]
  omega

theorem val_resize {xs : List α} {n i : ℕ} (hi : i ≤ n) (hn : n ≤ xs.length) : val (resize xs n) i = val xs i := by
  by_cases hi0 : i = 0
  · subst hi0
    rfl
  · have htake : (resize xs n)[i - 1]? = xs[i - 1]? := by
      rw [resize, Nat.sub_eq_zero_of_le hn, List.replicate_zero, List.append_nil]
      exact List.getElem?_take_of_lt (by omega)
    simp [val, read, hi0, htake]

end Read

theorem val_replicate [Inhabited α] (n i : ℕ) : val (List.replicate n (default : α)) i = default := by
  by_cases hi : i = 0 ∨ n < i
  · exact val_eq_default (by simpa using hi)
  · obtain ⟨k, rfl⟩ : ∃ k, i = k + 1 := ⟨i - 1, by omega⟩
    rw [val_succ, List.getD_eq_getElem?_getD, List.getElem?_replicate]
    split <;> rfl

end OneBased
