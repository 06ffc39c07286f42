import Joolia.Base.Vector.Growth

namespace Joolia.Vectors

open Fallible

variable {α : Type} {rt : Runtime α} {a a' : Vec α} {xs ys : List (Cell α)}

def readCell : Cell α → Except Error α
  | some x => .ok x
  | none => .error .undefRefError

def Items.cells (items : Items α) (xs : List (Cell α)) : List (Cell α) :=
  match items with
  | .other cells => cells
  | .self => xs

-- The same operations on lists, with the elements they return besides the list. The cells that
-- resize! uncovers are undefined: `new` chooses them.
def listOp (new : ℕ → Cell α) (xs : List (Cell α)) :
    Op α → Except Error (List (Cell α) × List (Cell α))
  | .push item => .ok (xs ++ [some item], [])
  | .pushfirst item => .ok (some item :: xs, [])
  | .pop =>
      match xs.getLast? with
      | none => .error (.argumentError "array must be non-empty")
      | some c => do .ok (xs.dropLast, [some (← readCell c)])
  | .popfirst =>
      match xs with
      | [] => .error (.argumentError "array must be non-empty")
      | c :: xs => do .ok (xs, [some (← readCell c)])
  | .insert i item =>
      if 0 ≤ i ∧ i ≤ xs.length then .ok (xs.take i.toNat ++ some item :: xs.drop i.toNat, [])
      else .error (.boundsError i)
  | .popat i =>
      if 0 ≤ i ∧ i < xs.length then do
        .ok (xs.eraseIdx i.toNat, [some (← readCell (xs.getD i.toNat none))])
      else .error (.boundsError i)
  | .popatDefault i default =>
      if 0 ≤ i ∧ i < xs.length then do
        .ok (xs.eraseIdx i.toNat, [some (← readCell (xs.getD i.toNat none))])
      else .ok (xs, [some default])
  | .deleteat i => if 0 ≤ i ∧ i < xs.length then .ok (xs.eraseIdx i.toNat, []) else .error (.boundsError i)
  | .deleteatRange first n =>
      if n = 0 then .ok (xs, [])
      else if ¬ (0 ≤ first ∧ first < xs.length) then .error (.boundsError first)
      else if ¬ first + n ≤ xs.length then .error (.boundsError (first + n - 1))
      else .ok (xs.take first.toNat ++ xs.drop (first.toNat + n), [])
  | .append items => .ok (xs ++ items.cells xs, [])
  | .prepend items => .ok (items.cells xs ++ xs, [])
  | .splice first n ins =>
      if ¬ (n = 0 ∨ (0 ≤ first ∧ first + n - 1 < xs.length)) then
        .error (.boundsErrorRange first (first + n - 1))
      else if ins = [] then .ok (xs.take first.toNat ++ xs.drop (first.toNat + n), (xs.drop first.toNat).take n)
      else if ¬ (0 ≤ first ∧ first ≤ xs.length) then .error (.boundsError first)
      else .ok (xs.take first.toNat ++ ins.map some ++ xs.drop (first.toNat + n), (xs.drop first.toNat).take n)
  | .resize nl =>
      if nl < 0 then .error (.argumentError "new length must be ≥ 0")
      else .ok (xs.take nl.toNat ++ (List.range (nl.toNat - xs.length)).map new, [])
  | .empty => .ok ([], [])
  | .sizehint _ _ _ => .ok (xs, [])

def ListStep (op : Op α) (xs : List (Cell α)) (outcome : Except Error (List (Cell α) × List (Cell α))) :
    Prop :=
  ∃ new, listOp new xs op = outcome

def Op.isSizehint : Op α → Bool
  | .sizehint _ _ _ => true
  | _ => false

-- The operation does to the visible elements what it does to a list, and leaves the window inside
-- the memory. For lack of memory it may be refused, sizehint! excepted.
def StepMeets (rt : Runtime α) (a : Vec α) (op : Op α) : Prop :=
  match perform rt a op with
  | .ok (a', items) => a'.Valid ∧ ListStep op a.toList (.ok (a'.toList, items))
  | .error e => ListStep op a.toList (.error e) ∨ (e.Resource a.size ∧ op.isSizehint = false)

-- Every step of a run, the runtime answering anew in each.
def RunMeets : List (Runtime α × Op α) → Vec α → Prop
  | [], a => a.Valid
  | (rt, op) :: steps, a => a.Valid ∧ StepMeets rt a op ∧ RunMeets steps (after a (perform rt a op))

-- A hint that asks for memory gets it; and the window is not to be put behind the last cell of
-- the smaller memory, where an empty vector with all its room in front would start.
def SizehintServed (rt : Runtime α) (a : Vec α) (sz : ℤ) (first shrink : Bool) : Prop :=
  let memlen := a.mem.length
  let sz := max sz.toNat a.size
  if sz ≤ memlen then
    shrink = false ∨ memlen - sz ≤ memlen / 8 ∨ (rt.grants sz = true ∧ ¬ (first = true ∧ a.size = 0))
  else if first then
    let needed := a.size + 2 * (sz - a.size)
    needed ≤ typemaxInt ∧ rt.grants (max (overallocation a.size) needed) = true
  else
    a.offset + sz ≤ typemaxInt ∧ rt.grants (max (overallocation memlen) (a.offset + sz)) = true

def StepServed (rt : Runtime α) (a : Vec α) : Op α → Prop
  | .sizehint sz first shrink => SizehintServed rt a sz first shrink
  | _ => True

def RunServed : List (Runtime α × Op α) → Vec α → Prop
  | [], _ => True
  | (rt, op) :: steps, a => StepServed rt a op ∧ RunServed steps (after a (perform rt a op))

-- StepMeets for the operations other than sizehint!.
def Agrees (a : Vec α) (op : Op α) (outcome : Except Error (Vec α × List (Cell α))) : Prop :=
  match outcome with
  | .ok (a', items) => a'.Valid ∧ ListStep op a.toList (.ok (a'.toList, items))
  | .error e => ListStep op a.toList (.error e) ∨ e.Resource a.size

section Steps

variable {op : Op α} {x : Except Error (Vec α)}

theorem agrees_of_holds {xs items : List (Cell α)} (hx : Holds a' xs)
    (hop : listOp (fun _ => none) a.toList op = .ok (xs, items)) : Agrees a op (.ok (a', items)) :=
  ⟨hx.valid, _, by rw [hx.toList, hop]⟩

theorem agrees_of_error {e : Error} (hop : listOp (fun _ => none) a.toList op = .error e) :
    Agrees a op (.error e) := .inl ⟨_, hop⟩

theorem agrees_of_serves (h : Serves a.size x fun b => Agrees a op (.ok (b, []))) :
    Agrees a op (do return (← x, [])) := by
  rcases h with ⟨b, rfl, hb⟩ | ⟨e, rfl, he⟩
  · exact hb
  · exact .inr he

theorem push_agrees (ha : a.Valid) (item : α) : Agrees a (.push item) (perform rt a (.push item)) := by
  refine agrees_of_serves ((growend_spec rt 1 ha).bind ?_)
  intro b hb
  obtain ⟨new, hlen, hlist⟩ := hb.toList_end
  obtain ⟨c, hset, hc⟩ := setindex_spec (i := b.size - 1) (x := item) hb.valid (by have := hb.size; omega)
  have hindex : ((b.size : ℤ) - 1) = (b.size - 1 : ℕ) := by have := hb.size; omega
  rw [hindex, hset]
  refine .ok (agrees_of_holds hc ?_)
  obtain ⟨y, rfl⟩ := List.length_eq_one_iff.mp hlen
  simp [listOp, hlist, hb.size]

theorem pushfirst_agrees (ha : a.Valid) (item : α) :
    Agrees a (.pushfirst item) (perform rt a (.pushfirst item)) := by
  refine agrees_of_serves ((growbeg_spec rt 1 ha).bind ?_)
  intro b hb
  obtain ⟨new, hlen, hlist⟩ := hb.toList_beg
  obtain ⟨c, hset, hc⟩ := setindex_spec (i := 0) (x := item) hb.valid (by have := hb.size; omega)
  rw [show (0 : ℤ) = (0 : ℕ) from rfl, hset]
  refine .ok (agrees_of_holds hc ?_)
  obtain ⟨y, rfl⟩ := List.length_eq_one_iff.mp hlen
  simp [listOp, hlist]

theorem insert_agrees (ha : a.Valid) (i : ℤ) (item : α) :
    Agrees a (.insert i item) (perform rt a (.insert i item)) := by
  by_cases hi : 0 ≤ i ∧ i ≤ a.size
  · refine agrees_of_serves ((growat_spec rt 1 ha hi.1 hi.2).bind ?_)
    intro b hb
    obtain ⟨n, rfl⟩ := Int.eq_ofNat_of_zero_le hi.1
    obtain ⟨new, hlen, hlist⟩ := hb.toList (by omega)
    obtain ⟨c, hset, hc⟩ := setindex_spec (i := n) (x := item) hb.valid (by have := hb.size; omega)
    rw [hset]
    refine .ok (agrees_of_holds hc ?_)
    obtain ⟨y, rfl⟩ := List.length_eq_one_iff.mp hlen
    have hn : n ≤ a.size := by omega
    simp [listOp, hlist, hn]
  · have herror : perform rt a (.insert i item) = .error (.boundsError i) := by
      simp [perform, insert, growat_error 1 hi]
    rw [herror]
    exact agrees_of_error (by simp only [listOp, length_toList]; rw [if_neg hi])

theorem append_agrees (ha : a.Valid) (items : Items α) :
    Agrees a (.append items) (perform rt a (.append items)) := by
  refine agrees_of_serves ((growend_spec rt _ ha).bind ?_)
  intro b hb
  obtain ⟨new, hlen, hlist⟩ := hb.toList_end
  have hsize := hb.size
  have hsrc : 0 + (items.vector a).size ≤ (items.vector b).size := by
    cases items with
    | other cells => simp [Items.vector]
    | self => simp only [Items.vector] at hsize ⊢; omega
  obtain ⟨c, hcopy, hc⟩ := copyto_spec (a := b) (b.size - (items.vector a).size) hb.valid (by omega) hsrc
  rw [hcopy]
  refine .ok (agrees_of_holds hc ?_)
  have htake : (items.vector b).toList.take (items.vector a).size = items.cells a.toList := by
    cases items with
    | other cells => simp [Items.vector, Items.cells]
    | self => simp [Items.vector, Items.cells, hlist]
  have hlow : b.size - (items.vector a).size = a.toList.length := by simp; omega
  have hall : b.toList.drop (a.toList.length + (items.vector a).size) = [] := by simp; omega
  rw [hlow, hall, hlist]
  simp [listOp, htake]

theorem prepend_agrees (ha : a.Valid) (items : Items α) :
    Agrees a (.prepend items) (perform rt a (.prepend items)) := by
  refine agrees_of_serves ((growbeg_spec rt _ ha).bind ?_)
  intro b hb
  obtain ⟨new, hlen, hlist⟩ := hb.toList_beg
  have hsize := hb.size
  have hsrc : (items.vector b).size - (items.vector a).size + (items.vector a).size ≤ (items.vector b).size := by
    cases items with
    | other cells => simp [Items.vector]
    | self => simp only [Items.vector] at hsize ⊢; omega
  obtain ⟨c, hcopy, hc⟩ := copyto_spec (a := b) 0 hb.valid (by omega) hsrc
  rw [hcopy]
  refine .ok (agrees_of_holds hc ?_)
  have htake : ((items.vector b).toList.drop ((items.vector b).size - (items.vector a).size)).take
      (items.vector a).size = items.cells a.toList := by
    cases items with
    | other cells => simp [Items.vector, Items.cells]
    | self =>
        have hdrop : b.size - a.size = new.length := by omega
        simp [Items.vector, Items.cells, hlist, hdrop, List.take_of_length_le]
  rw [htake, Nat.zero_add, ← hlen, hlist]
  simp [listOp]

theorem pop_agrees (ha : a.Valid) : Agrees a .pop (perform rt a .pop) := by
  by_cases h0 : a.size = 0
  · have hnil : a.toList = [] := List.length_eq_zero_iff.mp (by simpa using h0)
    have herror : perform rt a .pop = .error (.argumentError "array must be non-empty") := by
      simp [perform, pop, h0]
    rw [herror]
    exact agrees_of_error (by simp [listOp, hnil])
  · have hindex : ((a.size : ℤ) - 1) = (a.size - 1 : ℕ) := by omega
    have hget := getindex_eq (show a.size - 1 < a.size by omega)
    have hlast : a.toList.getLast? = some (a.cell (a.size - 1)) := by
      rw [List.getLast?_eq_getElem?, length_toList, getElem?_toList, if_pos (by omega)]
    obtain ⟨b, hb, hs⟩ := deleteend_spec rt 1 ha (by omega)
    have hholds := hs.holds (by omega)
    cases hcell : a.cell (a.size - 1) with
    | none =>
        have herror : perform rt a .pop = .error .undefRefError := by
          simp [perform, pop, h0, hindex, hget, hcell]
        rw [herror]
        exact agrees_of_error (by simp [listOp, hlast, hcell, readCell])
    | some y =>
        have hok : perform rt a .pop = .ok (b, [some y]) := by
          simp [perform, pop, h0, hindex, hget, hcell, hb]
        rw [hok]
        refine agrees_of_holds hholds ?_
        simp [listOp, hlast, hcell, readCell, List.dropLast_eq_take, show a.size - 1 + 1 = a.size by omega]

theorem popfirst_agrees (ha : a.Valid) : Agrees a .popfirst (perform rt a .popfirst) := by
  by_cases h0 : a.size = 0
  · have hnil : a.toList = [] := List.length_eq_zero_iff.mp (by simpa using h0)
    have herror : perform rt a .popfirst = .error (.argumentError "array must be non-empty") := by
      simp [perform, popfirst, h0]
    rw [herror]
    exact agrees_of_error (by simp [listOp, hnil])
  · have hget : getindex a 0 = match a.cell 0 with
        | some x => .ok x
        | none => .error .undefRefError := getindex_eq (show 0 < a.size by omega)
    have hlist : a.toList = a.cell 0 :: a.toList.drop 1 := by
      obtain ⟨m, hm⟩ := Nat.exists_eq_succ_of_ne_zero h0
      simp [Vec.toList, hm, List.range_succ_eq_map]
    obtain ⟨b, hb, hs⟩ := deletebeg_spec rt 1 ha (by omega)
    have hholds := hs.holds (by omega)
    cases hcell : a.cell 0 with
    | none =>
        have herror : perform rt a .popfirst = .error .undefRefError := by
          simp only [hcell] at hget
          simp [perform, popfirst, h0, hget]
        rw [herror]
        refine agrees_of_error ?_
        rw [hlist]
        simp [listOp, hcell, readCell]
    | some y =>
        have hok : perform rt a .popfirst = .ok (b, [some y]) := by
          simp only [hcell] at hget
          simp [perform, popfirst, h0, hget, hb]
        rw [hok]
        refine agrees_of_holds hholds ?_
        rw [hlist]
        simp [listOp, hcell, readCell]

-- The elements without the one at `i`.
theorem deleteatCount_one (rt : Runtime α) {i : ℤ} (ha : a.Valid) (hi : 0 ≤ i ∧ i < a.size) :
    ∃ b, deleteatCount rt a i 1 = .ok b ∧ Holds b (a.toList.eraseIdx i.toNat) := by
  obtain ⟨n, rfl⟩ := Int.eq_ofNat_of_zero_le hi.1
  obtain ⟨b, hb, hs⟩ := deleteatCount_spec rt 1 ha (by omega : n < a.size) (by omega)
  refine ⟨b, hb, ?_⟩
  rw [List.eraseIdx_eq_take_drop_succ]
  exact hs.holds (by omega)

theorem deleteat_agrees (ha : a.Valid) (i : ℤ) : Agrees a (.deleteat i) (perform rt a (.deleteat i)) := by
  by_cases hi : 0 ≤ i ∧ i < a.size
  · obtain ⟨b, hb, hholds⟩ := deleteatCount_one rt ha hi
    have hok : perform rt a (.deleteat i) = .ok (b, []) := by simp [perform, deleteat, hb]
    rw [hok]
    exact agrees_of_holds hholds (by simp [listOp, hi])
  · have herror : perform rt a (.deleteat i) = .error (.boundsError i) := by
      simp [perform, deleteat, deleteatCount_error hi]
    rw [herror]
    exact agrees_of_error (by simp only [listOp, length_toList]; rw [if_neg hi])

-- popat! with and without a default differ outside the vector only.
theorem popat_inside (ha : a.Valid) {i : ℤ} (hi : 0 ≤ i ∧ i < a.size)
    (hop : listOp (fun _ => none) a.toList op =
      (do .ok (a.toList.eraseIdx i.toNat, [some (← readCell (a.toList.getD i.toNat none))]))) :
    Agrees a op (do let (a, item) ← popat rt a i; return (a, [some item])) := by
  obtain ⟨b, hb, hholds⟩ := deleteatCount_one rt ha hi
  obtain ⟨n, rfl⟩ := Int.eq_ofNat_of_zero_le hi.1
  have hn : n < a.size := by omega
  have hget := getindex_eq hn
  have hcell : a.toList.getD n none = a.cell n := by
    rw [List.getD_eq_getElem?_getD, getElem?_toList, if_pos hn, Option.getD_some]
  simp only [Int.toNat_natCast] at hop hholds
  rw [hcell] at hop
  cases h : a.cell n with
  | none =>
      simp only [h] at hget
      have herror : (do let (a, item) ← popat rt a n; return (a, [some item])) =
          (.error .undefRefError : Except Error (Vec α × List (Cell α))) := by simp [popat, hget]
      rw [herror]
      exact agrees_of_error (by simp [hop, h, readCell])
  | some y =>
      simp only [h] at hget
      have hok : (do let (a, item) ← popat rt a n; return (a, [some item])) =
          (.ok (b, [some y]) : Except Error (Vec α × List (Cell α))) := by simp [popat, hget, hb]
      rw [hok]
      exact agrees_of_holds hholds (by simp [hop, h, readCell])

theorem popat_agrees (ha : a.Valid) (i : ℤ) : Agrees a (.popat i) (perform rt a (.popat i)) := by
  by_cases hi : 0 ≤ i ∧ i < a.size
  · exact popat_inside ha hi (by simp only [listOp, length_toList]; rw [if_pos hi])
  · have hget : getindex a i = .error (.boundsError i) := by
      rw [getindex, if_neg hi]
      rfl
    have herror : perform rt a (.popat i) = .error (.boundsError i) := by simp [perform, popat, hget]
    rw [herror]
    exact agrees_of_error (by simp only [listOp, length_toList]; rw [if_neg hi])

theorem popatDefault_agrees (ha : a.Valid) (i : ℤ) (default : α) :
    Agrees a (.popatDefault i default) (perform rt a (.popatDefault i default)) := by
  by_cases hi : 0 ≤ i ∧ i < a.size
  · have hsame : perform rt a (.popatDefault i default) =
        (do let (a, item) ← popat rt a i; return (a, [some item])) := by
      simp [perform, popatDefault, popat, hi]
    rw [hsame]
    exact popat_inside ha hi (by simp only [listOp, length_toList]; rw [if_pos hi])
  · have hok : perform rt a (.popatDefault i default) = .ok (a, [some default]) := by
      simp only [perform, popatDefault]
      rw [if_neg hi]
      rfl
    rw [hok]
    exact agrees_of_holds ⟨ha, rfl⟩ (by simp only [listOp, length_toList]; rw [if_neg hi])

theorem deleteatRange_agrees (ha : a.Valid) (first : ℤ) (n : ℕ) :
    Agrees a (.deleteatRange first n) (perform rt a (.deleteatRange first n)) := by
  by_cases hn : n = 0
  · have hok : perform rt a (.deleteatRange first n) = .ok (a, []) := by simp [perform, deleteatRange, hn]
    rw [hok]
    exact agrees_of_holds ⟨ha, rfl⟩ (by simp [listOp, hn])
  by_cases hfirst : 0 ≤ first ∧ first < a.size
  · obtain ⟨f, rfl⟩ := Int.eq_ofNat_of_zero_le hfirst.1
    have hlist : ∀ {x}, listOp (fun _ => none) a.toList (.deleteatRange f n) = x ↔
        (if ¬ (f : ℤ) + n ≤ a.size then .error (.boundsError (f + n - 1))
          else .ok (a.toList.take f ++ a.toList.drop (f + n), [])) = x := by
      intro x
      simp only [listOp, length_toList, Int.toNat_natCast]
      rw [if_neg hn, if_neg (by omega)]
    by_cases hend : (f : ℤ) + n ≤ a.size
    · obtain ⟨b, hb, hs⟩ := deleteatCount_spec rt n ha (by omega : f < a.size) (by omega)
      have hok : perform rt a (.deleteatRange f n) = .ok (b, []) := by
        simp [perform, deleteatRange, hn, hb]
      rw [hok]
      exact agrees_of_holds (hs.holds (by omega)) (by rw [hlist, if_neg (by omega)])
    · have hcount : deleteatCount rt a f n = .error (.boundsError (f + n - 1)) := by
        simp only [deleteatCount]
        rw [if_neg (by omega), if_pos hend]
        rfl
      have herror : perform rt a (.deleteatRange f n) = .error (.boundsError (f + n - 1)) := by
        simp [perform, deleteatRange, hn, hcount]
      rw [herror]
      exact agrees_of_error (by rw [hlist, if_pos hend])
  · have herror : perform rt a (.deleteatRange first n) = .error (.boundsError first) := by
      simp [perform, deleteatRange, hn, deleteatCount_error hfirst]
    rw [herror]
    refine agrees_of_error ?_
    simp only [listOp, length_toList]
    rw [if_neg hn, if_pos hfirst]

theorem empty_agrees (ha : a.Valid) : Agrees a .empty (perform rt a .empty) := by
  obtain ⟨b, hb, hs⟩ := deleteend_spec rt a.size ha (Nat.le_refl _)
  have hok : perform rt a .empty = .ok (b, []) := by simp [perform, empty, hb]
  rw [hok]
  refine agrees_of_holds (hs.holds (by omega)) ?_
  simp [listOp]

theorem resize_agrees (ha : a.Valid) (nl : ℤ) : Agrees a (.resize nl) (perform rt a (.resize nl)) := by
  by_cases hgrow : (a.size : ℤ) < nl
  · have hsame : perform rt a (.resize nl) = (do return (← growend rt a (nl - a.size).toNat, [])) := by
      simp [perform, resize, hgrow]
    rw [hsame]
    refine agrees_of_serves ?_
    rcases growend_spec rt (nl - a.size).toNat ha with ⟨b, hb, hgrown⟩ | hrefused
    · refine .inl ⟨b, hb, hgrown.valid, ?_⟩
      obtain ⟨new, hlen, hlist⟩ := hgrown.toList_end
      refine ⟨fun k => new.getD k none, ?_⟩
      have hmap : (List.range new.length).map (fun k => new.getD k none) = new := by
        refine List.ext_getElem (by simp) ?_
        intro k hk hk'
        simp [hk']
      simp only [listOp, length_toList]
      rw [if_neg (by omega), hlist, show nl.toNat - a.size = new.length by omega, hmap,
        List.take_of_length_le (by simp; omega)]
    · exact .inr hrefused
  by_cases hneg : nl < 0
  · have herror : perform rt a (.resize nl) = .error (.argumentError "new length must be ≥ 0") := by
      simp [perform, resize, hgrow, hneg, show nl ≠ a.size by omega]
    rw [herror]
    exact agrees_of_error (by simp [listOp, hneg])
  · have htake : ∀ {x}, listOp (fun _ => none) a.toList (.resize nl) = x ↔
        .ok (a.toList.take nl.toNat, []) = x := by
      intro x
      simp only [listOp, length_toList]
      rw [if_neg hneg, show nl.toNat - a.size = 0 by omega]
      simp
    by_cases hsame : nl = a.size
    · have hok : perform rt a (.resize nl) = .ok (a, []) := by simp [perform, resize, hsame]
      rw [hok]
      exact agrees_of_holds ⟨ha, rfl⟩ (by rw [htake, List.take_of_length_le (by simp; omega)])
    · obtain ⟨b, hb, hs⟩ := deleteend_spec rt (a.size - nl).toNat ha (by omega)
      have hok : perform rt a (.resize nl) = .ok (b, []) := by
        simp [perform, resize, hgrow, hneg, hsame, hb]
      rw [hok]
      refine agrees_of_holds (hs.holds (by omega)) ?_
      rw [htake, show a.size - (a.size - nl).toNat = nl.toNat by omega,
        show nl.toNat + (a.size - nl).toNat = a.toList.length by simp; omega]
      simp

theorem setItems_spec {f : ℕ} {ins : List α} (ha : a.Valid) (hf : f + ins.length ≤ a.size) :
    ∃ b, setItems a f ins = .ok b ∧
      Holds b (a.toList.take f ++ ins.map some ++ a.toList.drop (f + ins.length)) := by
  induction ins generalizing a f with
  | nil => exact ⟨a, rfl, ha, by simp⟩
  | cons x ins ih =>
      simp only [List.length_cons] at hf
      obtain ⟨b, hb, hholds⟩ := setindex_spec (i := f) (x := x) ha (by omega)
      have hsize : b.size = a.size := by simpa using hholds.size
      obtain ⟨c, hc, hlast⟩ := ih (f := f + 1) hholds.valid (by omega)
      refine ⟨c, ?_, ?_⟩
      · rw [setItems, hb]
        exact hc
      · rw [hholds.toList, List.drop_set_of_lt (by omega), List.take_add_one, List.getElem?_set_self (by simp; omega),
          List.take_set_of_le (by omega)] at hlast
        simpa [Nat.add_assoc, Nat.add_comm 1] using hlast

-- The room for `m` items in place of the `d` cells from `f` on.
theorem spliceRoom_spec (rt : Runtime α) {f d m : ℕ} (ha : a.Valid) (hm : 0 < m) (hf : f + d ≤ a.size) :
    Serves a.size (spliceRoom rt a f d m) fun b =>
      b.Valid ∧ b.toList.take f = a.toList.take f ∧ b.toList.drop (f + m) = a.toList.drop (f + d) ∧
        f + m ≤ b.size := by
  simp only [spliceRoom]
  split
  · obtain ⟨i, hi, hcases⟩ : ∃ i : ℕ, (if (f : ℤ) < a.size - (f + d - 1) - 1 then (f : ℤ)
        else (f + d - 1) - (d - m : ℕ) + 1) = i ∧ (i = f ∨ i = f + m) := by
      split
      · exact ⟨f, rfl, .inl rfl⟩
      · exact ⟨f + m, by omega, .inr rfl⟩
    rw [hi]
    obtain ⟨b, hb, hs⟩ := deleteatCount_spec rt (d - m) ha (by omega : i < a.size) (by omega)
    have hsize := hs.size
    rw [hb]
    refine .ok ⟨hs.valid, ?_, ?_, by omega⟩
    · rw [hs.toList (by omega), List.take_append_of_le_length (by simp; omega), List.take_take,
        Nat.min_eq_left (by omega)]
    · rw [hs.toList (by omega), List.drop_append]
      rcases hcases with rfl | rfl
      · simp [Nat.min_eq_left (show i ≤ a.size by omega), show i + (d - m) + m = i + d by omega]
      · simp [Nat.min_eq_left (show f + m ≤ a.size by omega), show f + m + (d - m) = f + d by omega]
  split
  · obtain ⟨i, hi, hcases⟩ : ∃ i : ℕ, (if (f : ℤ) < a.size - (f + d - 1) - 1 then (f : ℤ)
        else (f + d - 1) + 1) = i ∧ (i = f ∨ i = f + d) := by
      split
      · exact ⟨f, rfl, .inl rfl⟩
      · exact ⟨f + d, by omega, .inr rfl⟩
    rw [hi]
    rcases growat_spec rt (m - d) ha (by omega : (0 : ℤ) ≤ i) (by omega) with ⟨b, hb, hg⟩ | hrefused
    · have hsize := hg.size
      obtain ⟨new, hlen, hlist⟩ := hg.toList (by omega)
      simp only [Int.toNat_natCast] at hlist
      rw [hb]
      refine .ok ⟨hg.valid, ?_, ?_, by omega⟩
      · rw [hlist, List.append_assoc, List.take_append_of_le_length (by simp; omega), List.take_take,
          Nat.min_eq_left (by omega)]
      · rw [hlist, List.drop_append, List.drop_eq_nil_of_le (by simp; omega), List.nil_append, List.drop_drop]
        congr 1
        simp only [List.length_append, List.length_take, length_toList, hlen]
        omega
    · exact .inr hrefused
  · refine .ok ⟨ha, rfl, ?_, by omega⟩
    rw [show f + m = f + d by omega]

theorem getindexRange_eq {first : ℤ} {d : ℕ} (hgrant : rt.grants d = true)
    (hbounds : d = 0 ∨ (0 ≤ first ∧ first + d - 1 < a.size)) :
    getindexRange rt a first d = .ok ((a.toList.drop first.toNat).take d) := by
  simp only [getindexRange]
  rw [if_neg (fun h => h hbounds)]
  simp only [arrayNewMemory, hgrant, if_true, pure_eq_ok, ok_bind]
  congr 1
  refine List.ext_getElem? fun k => ?_
  by_cases hk : k < d
  · have hlt : first.toNat + k < a.size := by omega
    rw [List.getElem?_take_of_lt hk, List.getElem?_drop, getElem?_toList, if_pos hlt]
    simp [hk, Vec.cell, Nat.add_assoc]
  · simp [hk] <;> omega

theorem splice_agrees (ha : a.Valid) (first : ℤ) (d : ℕ) (ins : List α) :
    Agrees a (.splice first d ins) (perform rt a (.splice first d ins)) := by
  simp only [perform, splice]
  by_cases hbounds : d = 0 ∨ (0 ≤ first ∧ first + d - 1 < a.size)
  swap
  · have hget : getindexRange rt a first d = .error (.boundsErrorRange first (first + d - 1)) := by
      simp only [getindexRange]
      rw [if_pos hbounds]
      rfl
    rw [hget]
    refine agrees_of_error ?_
    simp only [listOp, length_toList]
    rw [if_pos hbounds]
  by_cases hgrant : rt.grants d = true
  swap
  · have hget : getindexRange rt a first d = .error .memoryError := by
      simp only [getindexRange]
      rw [if_neg (fun h => h hbounds)]
      simp [arrayNewMemory, hgrant]
    rw [hget]
    exact .inr (.inr (.inl rfl))
  rw [getindexRange_eq hgrant hbounds, ok_bind]
  by_cases hins : ins = []
  · have hlist : listOp (fun _ => none) a.toList (.splice first d ins) =
        .ok (a.toList.take first.toNat ++ a.toList.drop (first.toNat + d), (a.toList.drop first.toNat).take d) := by
      simp only [listOp, length_toList]
      rw [if_neg (fun h => h hbounds), if_pos hins]
    subst hins
    obtain ⟨b, hb, hholds⟩ : ∃ b, deleteatRange rt a first d = .ok b ∧
        Holds b (a.toList.take first.toNat ++ a.toList.drop (first.toNat + d)) := by
      by_cases hd : d = 0
      · exact ⟨a, by simp [deleteatRange, hd], ha, by simp [hd]⟩
      · obtain ⟨f, rfl⟩ := Int.eq_ofNat_of_zero_le (by omega : 0 ≤ first)
        obtain ⟨b, hb, hs⟩ := deleteatCount_spec rt d ha (by omega : f < a.size) (by omega)
        exact ⟨b, by simp [deleteatRange, hd, hb], hs.holds (by omega)⟩
    simp only [List.length_nil, if_true, hb, ok_bind]
    exact agrees_of_holds hholds hlist
  have hm : 0 < ins.length := List.length_pos_iff.mpr hins
  rw [if_neg (by omega)]
  by_cases hfirst : 0 ≤ first ∧ first ≤ a.size
  swap
  · -- only an empty range can lie outside
    have hd : d = 0 := by omega
    subst hd
    have hroom : spliceRoom rt a first 0 ins.length = .error (.boundsError first) := by
      simp only [spliceRoom]
      rw [if_neg (by omega), if_pos hm, show (if first < a.size - (first + (0 : ℕ) - 1) - 1 then first
        else first + (0 : ℕ) - 1 + 1) = first by split <;> omega]
      exact growat_error _ hfirst
    rw [hroom]
    refine agrees_of_error ?_
    rw [listOp, length_toList, if_neg (fun h => h hbounds), if_neg hins, if_pos hfirst]
  obtain ⟨f, rfl⟩ := Int.eq_ofNat_of_zero_le hfirst.1
  rcases spliceRoom_spec rt ha hm (by omega : f + d ≤ a.size) with ⟨b, hb, hvalid, htake, hdrop, hroom⟩ | ⟨e, he, hres⟩
  · obtain ⟨c, hc, hholds⟩ := setItems_spec (f := f) hvalid hroom
    rw [hb, ok_bind, hc, ok_bind]
    rw [htake, hdrop] at hholds
    refine agrees_of_holds hholds ?_
    simp only [listOp, length_toList, Int.toNat_natCast]
    rw [if_neg (fun h => h hbounds), if_neg hins, if_neg (fun h => h hfirst)]
  · rw [he]
    exact .inr hres

end Steps

end Joolia.Vectors
