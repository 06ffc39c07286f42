import Joolia.Base.Dict.Calls
import Joolia.Base.Dict.Theorems
import Joolia.Library.Fallible

namespace Joolia.Sets

open Hashtable Probing

variable {K V : Type} [Key K]

-- A `Set` is a table of keys with the value `nothing`. `in!(x, s)`: whether `x` was there before it is added
def inPush (x : K) (s : Dict K Unit) : Option (Bool × Dict K Unit) :=
  (htKeyindex2Shorthash (calls s) s x).bind fun (h, idx, sh) =>
    if idx ≥ 0 then some (true, h) else (setindexAt h () x (-idx - 1).toNat sh).map fun h => (false, h)

-- `sizehint!(d, newsz)`; `maxvalues` is `max_values` of the key type.
def sizehint (maxvalues : ℕ) (d : Dict K V) (newsz : ℤ) : Option (Dict K V) :=
  let oldsz := d.slots.length
  let newsz := min (max newsz d.count) maxvalues
  let newsz := tablesz (-(-(3 * newsz) / 2))
  if newsz = oldsz then some d else rehash d newsz

-- No two values are `isequal`.
def Distinct (l : List K) : Prop := l.Pairwise fun a b => Key.isequal a b = false

-- The table of a set has the values of a list.
def Holds (s : Dict K Unit) (l : List K) : Prop := ∃ t, Inv s t ∧ ((entries t).map Prod.fst).Perm l

theorem holds_new : Holds (Dict.new : Dict K Unit) [] := ⟨[], inv_new, .refl _⟩

theorem isequal_comm [LawfulKey K] (a b : K) : Key.isequal a b = Key.isequal b a :=
  Bool.eq_iff_iff.mpr ⟨LawfulKey.symm, LawfulKey.symm⟩

theorem inPush_spec [LawfulKey K] {s : Dict K Unit} {l : List K} (hs : Holds s l) (x : K) :
    (∃ s', inPush x s = some (true, s') ∧ Holds s' l ∧ ∃ k ∈ l, Key.isequal x k = true) ∨
      ∃ s', inPush x s = some (false, s') ∧ Holds s' (x :: l) ∧ ∀ k ∈ l, Key.isequal x k = false := by
  obtain ⟨t, hinv, hperm⟩ := hs
  obtain ⟨h, u, r, hcall, hinv', hperm', -, hfound⟩ := calls_spec hinv x
  have hkeys : ((entries u).map Prod.fst).Perm l := (hperm'.map _).trans hperm
  rw [inPush, hcall]
  simp only [Option.bind_some]
  obtain ⟨i, rfl, hm⟩ | ⟨p, rfl, hfree⟩ := hfound
  · left
    obtain ⟨a, ha, heq⟩ := slotMatches_iff.1 hm
    refine ⟨h, if_pos (by omega), ⟨u, hinv', hkeys⟩, a.1, ?_, heq⟩
    exact hkeys.mem_iff.mp (List.mem_map_of_mem (mem_entries.2 ⟨i, ha⟩))
  · right
    obtain ⟨s', w, hset, hinv'', hperm'', -⟩ := setindexAt_spec hinv'.toStored hfree ()
    have hpos : (-(-(p + 1 : ℤ)) - 1).toNat = p := by omega
    refine ⟨s', ?_, ⟨w, hinv'', (hperm''.map _).trans (hkeys.cons x)⟩, fun k hk => ?_⟩
    · rw [if_neg (by omega), hpos, hset]
      rfl
    · obtain ⟨a, ha, rfl⟩ := List.mem_map.mp (hkeys.mem_iff.mpr hk)
      obtain ⟨i, hi⟩ := mem_entries.1 ha
      have habsent := hfree.absent i
      rwa [hi] at habsent

theorem sizehint_spec [LawfulKey K] {s : Dict K Unit} {l : List K} (hs : Holds s l) {maxvalues : ℕ}
    (hmax : l.length ≤ maxvalues) (newsz : ℤ) : ∃ s', sizehint maxvalues s newsz = some s' ∧ Holds s' l := by
  obtain ⟨t, hinv, hperm⟩ := hs
  have hcount : s.count = l.length := by
    rw [hinv.count, ← hperm.length_eq, List.length_map]
  rw [sizehint]
  split_ifs with hsame
  · exact ⟨s, rfl, t, hinv, hperm⟩
  · have hroom : s.count < tablesz (tablesz (-(-(3 * min (max newsz s.count) maxvalues) / 2))) := by
      obtain ⟨hle, h16, -⟩ := tablesz_spec (-(-(3 * min (max newsz s.count) maxvalues) / 2))
      have hle' := (tablesz_spec (tablesz (-(-(3 * min (max newsz s.count) maxvalues) / 2)))).1
      omega
    obtain ⟨s', u, hrun, hinv', hperm', -⟩ := rehash_spec hinv.toStored hroom
    exact ⟨s', hrun, u, hinv', (hperm'.map _).trans hperm⟩

end Joolia.Sets

namespace Joolia.Sets

open Hashtable Fallible

-- `stuck` is a call of the hash table that does not return.
inductive TestError
  | boundsError (i : ℕ)
  | stuck
deriving DecidableEq, Repr

inductive Container
  | tuple
  | array (ordered : Bool)
  | iterator (haslength : Bool)
deriving DecidableEq, Repr

variable {α K : Type} [Key K]

section Code

variable (maxvalues : ℕ)

-- `in!(v, seen) && return false` for one value after another
def seenLoop : List K → Dict K Unit → Option (Bool × Dict K Unit)
  | [], seen => some (false, seen)
  | v :: C, seen => (inPush v seen).bind fun (found, seen) => if found then some (true, seen) else seenLoop C seen

def hashedAllunique (haslength : Bool) (C : List K) : Except TestError Bool :=
  let result := if haslength && decide (1000 < C.length) then do
      let (found, seen) ← seenLoop (C.take 1000) Dict.new
      if found then some (true, seen)
      else do
        let seen ← sizehint maxvalues seen C.length
        seenLoop (C.drop 1000) seen
    else seenLoop C Dict.new
  match result with
  | none => .error .stuck
  | some (found, _) => .ok !found

def getfield {β : Type} (A : List β) (i : ℕ) : Except TestError β :=
  match A[i]? with
  | none => .error (.boundsError i)
  | some a => .ok a

-- The inner loop of `_indexed_allunique`
def indexedInner (A : List K) (a : K) : List ℕ → Except TestError Bool
  | [] => .ok true
  | j :: rest => do
      let b ← getfield A j
      if Key.isequal a b then return false else indexedInner A a rest

def indexedLoop (A : List K) : List ℕ → Except TestError Bool
  | [] => .ok true
  | i :: rest => do
      let a ← getfield A i
      if ← indexedInner A a rest then indexedLoop A rest else return false

def indexedAllunique (A : List K) : Except TestError Bool :=
  if A.length < 2 then .ok true else indexedLoop A (List.range A.length)

-- `allunique(C)` for an iterator
def alluniqueIterator (haslength : Bool) (C : List K) : Except TestError Bool :=
  if haslength && decide (C.length < 2) then .ok true
  else if haslength && decide (C.length < 32) then indexedAllunique C
  else hashedAllunique maxvalues haslength C

-- `for a in rest` in `allunique(A::StridedArray)`
def monotoneScan (compare : K → K → Bool) (A : List K) : K → List K → Except TestError Bool
  | _, [] => .ok true
  | a2, a :: rest =>
      if compare a2 a then monotoneScan compare A a rest
      else if Key.isequal a2 a then .ok false
      else hashedAllunique maxvalues true A

-- `allunique(A::StridedArray)`; `ordered` is `OrderStyle(eltype(A)) === Ordered()`.
def alluniqueArray (isless : K → K → Bool) (ordered : Bool) (A : List K) : Except TestError Bool :=
  if A.length < 32 then indexedAllunique A
  else if ordered then do
    let a1 ← getfield A 0
    let a2 ← getfield A 1
    if Key.isequal a1 a2 then return false
    else monotoneScan maxvalues (if isless a1 a2 then isless else fun a b => isless b a) A a2 (A.drop 2)
  else hashedAllunique maxvalues true A

def alluniqueTuple : List K → Except TestError Bool
  | [] => .ok true
  | x :: t =>
      if (x :: t).length < 32 then
        let a := t.foldl (fun b y => b && !Key.isequal x y) true
        if a then alluniqueTuple t else .ok false
      else hashedAllunique maxvalues true (x :: t)

-- `allunique(c)`
def alluniqueSelf (isless : K → K → Bool) (c : Container) (C : List K) : Except TestError Bool :=
  match c with
  | .tuple => alluniqueTuple maxvalues C
  | .array ordered => alluniqueArray maxvalues isless ordered C
  | .iterator haslength => alluniqueIterator maxvalues haslength C

-- `allunique(f, c)`; other containers than tuples go through `Generator(f, xs)`.
def allunique (c : Container) (f : α → K) (xs : List α) : Except TestError Bool :=
  match c with
  | .tuple =>
      if xs.length < 2 then .ok true
      else if xs.length < 32 then alluniqueTuple maxvalues (xs.map f)
      else hashedAllunique maxvalues true (xs.map f)
  | .array _ => alluniqueIterator maxvalues true (xs.map f)
  | .iterator haslength => alluniqueIterator maxvalues haslength (xs.map f)

-- `all(isequal(a), rest)` after `peel`
def allequalIterator (haslength : Bool) (C : List K) : Bool :=
  if haslength && decide (C.length ≤ 1) then true
  else match C with
    | [] => true
    | a :: rest => rest.all fun x => Key.isequal x a

-- `isequal(val, f(xs[i]))` for one index after another
def checks (f : α → K) (xs : List α) (val : K) : List ℕ → Except TestError Bool
  | [] => .ok true
  | i :: rest => do
      let x ← getfield xs i
      if Key.isequal val (f x) then checks f xs val rest else return false

-- `_allequal_loop(f, xs)`
def allequalLoop (f : α → K) (xs : List α) : Except TestError Bool := do
  let x ← getfield xs 1
  checks f xs (f x) (List.range' 2 (xs.length - 1))

-- `allequal(f, xs::Tuple)`: the checks are written out for a tuple of at most 32 elements.
def allequalTuple (f : α → K) (xs : List α) : Except TestError Bool :=
  let n := xs.length
  if n ≤ 32 then
    if n ≤ 1 then .ok true
    else do
      let val ← getfield xs 1
      checks f xs (f val) (List.range' 2 (n - 1))
  else allequalLoop f xs

-- `allequal(f, c)`
def allequal (c : Container) (f : α → K) (xs : List α) : Except TestError Bool :=
  match c with
  | .tuple => allequalTuple f xs
  | .array _ => .ok (allequalIterator true (xs.map f))
  | .iterator haslength => .ok (allequalIterator haslength (xs.map f))

end Code

-- The test returns, and its answer is the proposition.
def Decides (r : Except TestError Bool) (P : Prop) : Prop := ∃ b, r = .ok b ∧ (b = true ↔ P)

theorem decides_true {P : Prop} (h : P) : Decides (.ok true) P := ⟨true, rfl, iff_of_true rfl h⟩

theorem decides_false {P : Prop} (h : ¬P) : Decides (.ok false) P := ⟨false, rfl, iff_of_false Bool.false_ne_true h⟩

theorem Decides.congr {r : Except TestError Bool} {P Q : Prop} (h : Decides r P) (hPQ : P ↔ Q) : Decides r Q := by
  obtain ⟨b, hr, hb⟩ := h
  exact ⟨b, hr, hb.trans hPQ⟩

section Hashed

variable [LawfulKey K]

theorem not_distinct_of_mem {done C : List K} {k x : K} (hk : k ∈ done) (h : Key.isequal x k = true) :
    ¬Distinct (done ++ x :: C) := by
  intro hd
  have hno := (List.pairwise_append.mp hd).2.2 k hk x List.mem_cons_self
  rw [isequal_comm, h] at hno
  cases hno

-- The loop stops at the first value that `isequal` to an earlier one.
theorem seenLoop_spec (C : List K) {done : List K} {seen : Dict K Unit} (hs : Holds seen done) (hd : Distinct done) :
    (∃ s, seenLoop C seen = some (true, s) ∧ ¬Distinct (done ++ C)) ∨
      ∃ s, seenLoop C seen = some (false, s) ∧ Holds s (done ++ C) ∧ Distinct (done ++ C) := by
  induction C generalizing done seen with
  | nil =>
      rw [List.append_nil]
      exact Or.inr ⟨seen, rfl, hs, hd⟩
  | cons v C ih =>
      rw [seenLoop]
      obtain ⟨s, hin, -, k, hk, heq⟩ | ⟨s, hin, hs', hnew⟩ := inPush_spec hs v
      · rw [hin]
        exact Or.inl ⟨s, rfl, not_distinct_of_mem hk heq⟩
      · rw [hin]
        have hd' : Distinct (done ++ [v]) := by
          refine List.pairwise_append.mpr ⟨hd, List.pairwise_singleton _ _, fun k hk x hx => ?_⟩
          rw [List.mem_singleton.mp hx, isequal_comm]
          exact hnew k hk
        obtain ⟨t, hinv, hperm⟩ := hs'
        have hrest := ih ⟨t, hinv, hperm.trans (List.perm_append_singleton v done).symm⟩ hd'
        rwa [List.append_assoc, List.singleton_append] at hrest

-- As many different values as the list has are values of its type.
def Fits (maxvalues : ℕ) (C : List K) : Prop := ∀ l, l.Sublist C → Distinct l → l.length ≤ maxvalues

theorem hashedAllunique_spec {maxvalues : ℕ} {C : List K} (hmax : Fits maxvalues C) (haslength : Bool) :
    Decides (hashedAllunique maxvalues haslength C) (Distinct C) := by
  have hnil : Distinct ([] : List K) := List.Pairwise.nil
  rw [hashedAllunique]
  split_ifs with hlong
  · obtain ⟨s, hwarm, hno⟩ | ⟨s, hwarm, hs, hd⟩ := seenLoop_spec (C.take 1000) holds_new hnil
    · rw [hwarm]
      refine decides_false fun h => hno ?_
      exact h.sublist (List.take_sublist 1000 C)
    · rw [List.nil_append] at hs hd
      obtain ⟨s', hhint, hs'⟩ := sizehint_spec hs (hmax _ (List.take_sublist 1000 C) hd) C.length
      rw [hwarm]
      simp only [Option.bind_eq_bind, Option.bind_some, Bool.false_eq_true, if_false, hhint]
      obtain ⟨s'', hrest, hno⟩ | ⟨s'', hrest, -, hd'⟩ := seenLoop_spec (C.drop 1000) hs' hd
      · rw [hrest]
        rw [List.take_append_drop] at hno
        exact decides_false hno
      · rw [hrest]
        rw [List.take_append_drop] at hd'
        exact decides_true hd'
  · obtain ⟨s, hrun, hno⟩ | ⟨s, hrun, -, hd⟩ := seenLoop_spec C holds_new hnil
    · rw [hrun]
      exact decides_false hno
    · rw [hrun]
      exact decides_true hd

end Hashed

section Indexed

theorem getfield_eq {β : Type} {A : List β} {i : ℕ} (h : i < A.length) : getfield A i = .ok A[i] := by
  rw [getfield, List.getElem?_eq_getElem h]

theorem indexedInner_spec (A : List K) (a : K) (i n : ℕ) (h : i + n = A.length) :
    Decides (indexedInner A a (List.range' i n)) (∀ b ∈ A.drop i, Key.isequal a b = false) := by
  induction n generalizing i with
  | zero =>
      rw [List.drop_eq_nil_of_le (by omega)]
      exact decides_true fun b hb => absurd hb List.not_mem_nil
  | succ n ih =>
      have hlt : i < A.length := by omega
      rw [List.range'_succ, indexedInner, getfield_eq hlt, ok_bind, List.drop_eq_getElem_cons hlt]
      by_cases heq : Key.isequal a A[i] = true
      · rw [if_pos heq]
        refine decides_false fun hall => ?_
        rw [hall _ List.mem_cons_self] at heq
        cases heq
      · rw [if_neg heq]
        refine (ih (i + 1) (by omega)).congr ?_
        rw [List.forall_mem_cons, and_iff_right (Bool.eq_false_iff.mpr heq)]

theorem indexedLoop_spec (A : List K) (i n : ℕ) (h : i + n = A.length) :
    Decides (indexedLoop A (List.range' i n)) (Distinct (A.drop i)) := by
  induction n generalizing i with
  | zero =>
      rw [List.drop_eq_nil_of_le (by omega)]
      exact decides_true List.Pairwise.nil
  | succ n ih =>
      have hlt : i < A.length := by omega
      obtain ⟨b, hinner, hb⟩ := indexedInner_spec A A[i] (i + 1) n (by omega)
      rw [List.range'_succ, indexedLoop, getfield_eq hlt, ok_bind, hinner, ok_bind, List.drop_eq_getElem_cons hlt]
      cases b with
      | false =>
          refine decides_false fun hd => ?_
          exact Bool.false_ne_true (hb.mpr fun x hx => List.rel_of_pairwise_cons hd hx)
      | true =>
          refine (ih (i + 1) (by omega)).congr ?_
          exact ⟨fun hd => List.Pairwise.cons (hb.mp rfl) hd, List.Pairwise.of_cons⟩

theorem distinct_of_length_lt {C : List K} (h : C.length < 2) : Distinct C := by
  cases C with
  | nil => exact List.Pairwise.nil
  | cons a C =>
      obtain rfl : C = [] := List.length_eq_zero_iff.mp (by simp only [List.length_cons] at h; omega)
      exact List.pairwise_singleton _ a

theorem indexedAllunique_spec (A : List K) : Decides (indexedAllunique A) (Distinct A) := by
  rw [indexedAllunique]
  split_ifs with hshort
  · exact decides_true (distinct_of_length_lt hshort)
  · have hloop := indexedLoop_spec A 0 A.length (Nat.zero_add _)
    rwa [List.drop_zero, ← List.range_eq_range'] at hloop

end Indexed

section Unique

variable [LawfulKey K] {maxvalues : ℕ}

theorem alluniqueIterator_spec {C : List K} (hmax : Fits maxvalues C) (haslength : Bool) :
    Decides (alluniqueIterator maxvalues haslength C) (Distinct C) := by
  rw [alluniqueIterator]
  split_ifs with hone hshort
  · rw [Bool.and_eq_true, decide_eq_true_eq] at hone
    exact decides_true (distinct_of_length_lt hone.2)
  · exact indexedAllunique_spec C
  · exact hashedAllunique_spec hmax haslength

theorem foldl_and {β : Type} (p : β → Bool) (t : List β) (b : Bool) :
    t.foldl (fun b y => b && p y) b = true ↔ b = true ∧ ∀ y ∈ t, p y = true := by
  induction t generalizing b with
  | nil => simp
  | cons y t ih => rw [List.foldl_cons, ih, Bool.and_eq_true, List.forall_mem_cons, and_assoc]

theorem alluniqueTuple_spec {C : List K} (hmax : Fits maxvalues C) : Decides (alluniqueTuple maxvalues C) (Distinct C) := by
  induction C with
  | nil => exact decides_true List.Pairwise.nil
  | cons x t ih =>
      have hrest := ih fun l hl => hmax l (hl.cons x)
      have hfold := foldl_and (fun y => !Key.isequal x y) t true
      simp only [Bool.not_eq_true', true_and] at hfold
      rw [alluniqueTuple]
      by_cases hshort : (x :: t).length < 32
      · rw [if_pos hshort]
        dsimp only
        split_ifs with hall
        · exact hrest.congr ⟨fun hd => List.Pairwise.cons (hfold.mp hall) hd, List.Pairwise.of_cons⟩
        · exact decides_false fun hd => hall (hfold.mpr fun y hy => List.rel_of_pairwise_cons hd hy)
      · rw [if_neg hshort]
        exact hashedAllunique_spec hmax true

-- `isless` orders the values up to `isequal`.
structure LawfulLess (isless : K → K → Bool) : Prop where
  trans {a b c : K} : isless a b = true → isless b c = true → isless a c = true
  ne {a b : K} : isless a b = true → Key.isequal a b = false
  total {a b : K} : Key.isequal a b = false → isless a b = true ∨ isless b a = true

theorem LawfulLess.flip {isless : K → K → Bool} (h : LawfulLess isless) : LawfulLess fun a b => isless b a where
  trans hab hbc := h.trans hbc hab
  ne hab := by
    rw [isequal_comm]
    exact h.ne hab
  total hab := (h.total hab).symm

-- The values up to `a2` are in order, so they are different; the scan falls back on the hash set where the order ends.
theorem monotoneScan_spec {compare : K → K → Bool} (hcompare : LawfulLess compare) {A : List K} (hmax : Fits maxvalues A)
    (rest : List K) {pre : List K} {a2 : K} (hA : A = pre ++ a2 :: rest)
    (hpre : (pre ++ [a2]).Pairwise fun a b => compare a b = true) :
    Decides (monotoneScan maxvalues compare A a2 rest) (Distinct A) := by
  induction rest generalizing pre a2 with
  | nil =>
      rw [hA]
      exact decides_true (hpre.imp hcompare.ne)
  | cons a rest ih =>
      rw [monotoneScan]
      split_ifs with hless heq
      · refine @ih (pre ++ [a2]) a (by rw [hA, List.append_assoc]; rfl) ?_
        refine List.pairwise_append.mpr ⟨hpre, List.pairwise_singleton _ _, fun b hb x hx => ?_⟩
        rw [List.mem_singleton.mp hx]
        rcases List.mem_append.mp hb with hb | hb
        · exact hcompare.trans ((List.pairwise_append.mp hpre).2.2 b hb a2 List.mem_cons_self) hless
        · rwa [List.mem_singleton.mp hb]
      · refine decides_false fun hd => ?_
        rw [hA] at hd
        have hno := List.rel_of_pairwise_cons (List.pairwise_append.mp hd).2.1 List.mem_cons_self
        rw [heq] at hno
        cases hno
      · exact hashedAllunique_spec hmax true

theorem alluniqueArray_spec {isless : K → K → Bool} (ordered : Bool) (hless : ordered = true → LawfulLess isless) {A : List K}
    (hmax : Fits maxvalues A) : Decides (alluniqueArray maxvalues isless ordered A) (Distinct A) := by
  rw [alluniqueArray]
  split_ifs with hshort hordered
  · exact indexedAllunique_spec A
  · have hlong : 2 ≤ A.length := by omega
    have hA : A = [A[0]] ++ A[1] :: A.drop 2 := by
      conv_lhs => rw [← List.drop_zero (l := A), List.drop_eq_getElem_cons (by omega), List.drop_eq_getElem_cons (by omega)]
      rfl
    rw [getfield_eq (show 0 < A.length by omega), ok_bind, getfield_eq (show 1 < A.length by omega), ok_bind]
    by_cases heq : Key.isequal A[0] A[1] = true
    · rw [if_pos heq]
      refine decides_false fun hd => ?_
      rw [hA] at hd
      have hno := (List.pairwise_append.mp hd).2.2 A[0] List.mem_cons_self A[1] List.mem_cons_self
      rw [heq] at hno
      cases hno
    · rw [if_neg heq]
      have hpair : ∀ {compare : K → K → Bool}, compare A[0] A[1] = true →
          ([A[0]] ++ [A[1]]).Pairwise fun a b => compare a b = true := fun h =>
        List.pairwise_pair.mpr h
      split_ifs with h01
      · exact monotoneScan_spec (hless hordered) hmax (A.drop 2) hA (hpair h01)
      · have h10 := ((hless hordered).total (Bool.eq_false_iff.mpr heq)).resolve_left h01
        exact monotoneScan_spec (hless hordered).flip hmax (A.drop 2) hA (hpair h10)
  · exact hashedAllunique_spec hmax true

-- Every form of `allunique` decides whether the values are different.
theorem alluniqueSelf_spec {isless : K → K → Bool} (c : Container) (hless : c = .array true → LawfulLess isless) {C : List K}
    (hmax : Fits maxvalues C) : Decides (alluniqueSelf maxvalues isless c C) (Distinct C) := by
  cases c with
  | tuple => exact alluniqueTuple_spec hmax
  | array ordered => exact alluniqueArray_spec ordered (fun h => hless (by rw [h])) hmax
  | iterator haslength => exact alluniqueIterator_spec hmax haslength

theorem allunique_spec (c : Container) (f : α → K) {xs : List α} (hmax : Fits maxvalues (xs.map f)) :
    Decides (allunique maxvalues c f xs) (Distinct (xs.map f)) := by
  cases c with
  | tuple =>
      rw [allunique]
      split_ifs with hone
      · exact decides_true (distinct_of_length_lt (by rwa [List.length_map]))
      · exact alluniqueTuple_spec hmax
      · exact hashedAllunique_spec hmax true
  | array ordered => exact alluniqueIterator_spec hmax true
  | iterator haslength => exact alluniqueIterator_spec hmax haslength

end Unique

section Equal

variable [LawfulKey K]

-- Any two values are `isequal`.
def Constant (l : List K) : Prop := ∀ a ∈ l, ∀ b ∈ l, Key.isequal a b = true

theorem constant_cons (a : K) (l : List K) : Constant (a :: l) ↔ ∀ b ∈ l, Key.isequal b a = true := by
  constructor
  · exact fun h b hb => h b (List.mem_cons_of_mem a hb) a List.mem_cons_self
  · intro h
    have hall : ∀ b ∈ a :: l, Key.isequal b a = true := List.forall_mem_cons.mpr ⟨LawfulKey.refl a, h⟩
    exact fun b hb c hc => LawfulKey.trans (hall b hb) (LawfulKey.symm (hall c hc))

theorem constant_of_length_le {l : List K} (h : l.length ≤ 1) : Constant l := by
  cases l with
  | nil => exact fun a ha => absurd ha List.not_mem_nil
  | cons a l =>
      obtain rfl : l = [] := List.length_eq_zero_iff.mp (by simp only [List.length_cons] at h; omega)
      exact (constant_cons a []).mpr fun b hb => absurd hb List.not_mem_nil

theorem allequalIterator_spec (haslength : Bool) (C : List K) : allequalIterator haslength C = true ↔ Constant C := by
  by_cases hone : (haslength && decide (C.length ≤ 1)) = true
  · rw [allequalIterator.eq_def, if_pos hone]
    rw [Bool.and_eq_true, decide_eq_true_eq] at hone
    exact iff_of_true rfl (constant_of_length_le hone.2)
  · rw [allequalIterator.eq_def, if_neg hone]
    cases C with
    | nil => exact iff_of_true rfl (constant_of_length_le (Nat.zero_le 1))
    | cons a rest => rw [constant_cons, List.all_eq_true]

omit [LawfulKey K] in
-- The checks read the elements from index `i` on, and one past the last.
theorem checks_eq (f : α → K) (xs : List α) (val : K) (i n : ℕ) (h : i + n = xs.length) :
    checks f xs val (List.range' i (n + 1)) =
      if ((xs.drop i).all fun x => Key.isequal val (f x)) = false then .ok false else .error (.boundsError xs.length) := by
  induction n generalizing i with
  | zero =>
      have hnone : xs[i]? = none := List.getElem?_eq_none (by omega)
      rw [List.range'_succ, checks, getfield, hnone, List.drop_eq_nil_of_le (by omega), List.all_nil, if_neg (by simp), ← h]
      rfl
  | succ n ih =>
      have hlt : i < xs.length := by omega
      rw [List.range'_succ, checks, getfield_eq hlt, ok_bind, List.drop_eq_getElem_cons hlt, List.all_cons]
      by_cases heq : Key.isequal val (f xs[i]) = true
      · rw [if_pos heq, ih (i + 1) (by omega), heq, Bool.true_and]
      · rw [if_neg heq, Bool.eq_false_iff.mpr heq, Bool.false_and, if_pos rfl]
        rfl

omit [LawfulKey K] in
theorem allequalTuple_eq (f : α → K) (xs : List α) (h : 2 ≤ xs.length) :
    allequalTuple f xs =
      if ((xs.drop 2).all fun x => Key.isequal (f xs[1]) (f x)) = false then .ok false else .error (.boundsError xs.length) := by
  have hloop : allequalLoop f xs = checks f xs (f xs[1]) (List.range' 2 (xs.length - 2 + 1)) := by
    rw [allequalLoop, getfield_eq (show 1 < xs.length by omega), ok_bind, show xs.length - 2 + 1 = xs.length - 1 by omega]
  have htuple : allequalTuple f xs = allequalLoop f xs := by
    rw [allequalTuple]
    split_ifs with hsmall hone
    · omega
    · rfl
    · rfl
  rw [htuple, hloop]
  exact checks_eq f xs (f xs[1]) 2 (xs.length - 2) (by omega)

end Equal

section Agreement

variable [LawfulKey K]

-- Both tests give the right answer for the images of the elements, and `allunique` for a container of the images.
structure TestsAgree (maxvalues : ℕ) (isless : K → K → Bool) (c : Container) (f : α → K) (xs : List α) : Prop where
  allequal : Decides (allequal c f xs) (Constant (xs.map f))
  allunique : Decides (allunique maxvalues c f xs) (Distinct (xs.map f))
  alluniqueSelf : Decides (alluniqueSelf maxvalues isless c (xs.map f)) (Distinct (xs.map f))

-- A tuple with two elements whose difference shows after the first place
def LateDifference (f : α → K) (xs : List α) : Prop :=
  ∃ x y, xs[1]? = some x ∧ y ∈ xs.drop 2 ∧ Key.isequal (f x) (f y) = false

theorem allequal_tuple_iff (f : α → K) (xs : List α) :
    Decides (allequal .tuple f xs) (Constant (xs.map f)) ↔ xs.length ≤ 1 ∨ LateDifference f xs := by
  rcases Nat.lt_or_ge 1 xs.length with hlong | hshort
  · rw [allequal, allequalTuple_eq f xs hlong]
    have hlate : LateDifference f xs ↔ ((xs.drop 2).all fun x => Key.isequal (f xs[1]) (f x)) = false := by
      rw [List.all_eq_false]
      constructor
      · rintro ⟨x, y, hx, hy, hno⟩
        obtain rfl : xs[1] = x := by
          rw [List.getElem?_eq_getElem hlong] at hx
          exact Option.some.inj hx
        exact ⟨y, hy, by rw [hno]; exact Bool.false_ne_true⟩
      · rintro ⟨y, hy, hno⟩
        exact ⟨xs[1], y, List.getElem?_eq_getElem hlong, hy, Bool.eq_false_iff.mpr hno⟩
    split_ifs with hall
    · refine iff_of_true (decides_false fun hconst => ?_) (Or.inr (hlate.mpr hall))
      obtain ⟨x, y, hx, hy, hno⟩ := hlate.mpr hall
      have heq := hconst (f x) (List.mem_map_of_mem (List.mem_of_getElem? hx)) (f y)
        (List.mem_map_of_mem (List.mem_of_mem_drop hy))
      rw [hno] at heq
      cases heq
    · refine iff_of_false ?_ ?_
      · rintro ⟨b, hb, -⟩
        cases hb
      · rintro (hle | hdiff)
        · omega
        · exact hall (hlate.mp hdiff)
  · have htrue : allequal .tuple f xs = .ok true := by
      rw [allequal, allequalTuple, if_pos (by omega), if_pos hshort]
    rw [htrue]
    exact iff_of_true (decides_true (constant_of_length_le (by rwa [List.length_map]))) (Or.inl hshort)

-- The tests agree with each other and with the elements, except for `allequal` on tuples, which counts elements from one.
theorem tests_agree_iff {maxvalues : ℕ} {isless : K → K → Bool} (c : Container) (hless : c = .array true → LawfulLess isless)
    (f : α → K) (xs : List α) (hmax : Fits maxvalues (xs.map f)) :
    TestsAgree maxvalues isless c f xs ↔ c ≠ .tuple ∨ xs.length ≤ 1 ∨ LateDifference f xs := by
  have hunique := allunique_spec c f hmax
  have hself := alluniqueSelf_spec c hless hmax
  cases c with
  | tuple =>
      rw [or_iff_right (not_not_intro rfl), ← allequal_tuple_iff]
      exact ⟨TestsAgree.allequal, fun h => ⟨h, hunique, hself⟩⟩
  | array ordered =>
      refine iff_of_true ⟨⟨_, rfl, allequalIterator_spec true _⟩, hunique, hself⟩ (Or.inl fun h => ?_)
      cases h
  | iterator haslength =>
      refine iff_of_true ⟨⟨_, rfl, allequalIterator_spec haslength _⟩, hunique, hself⟩ (Or.inl fun h => ?_)
      cases h

theorem lawfulLess_nat : LawfulLess fun a b : ℕ => decide (a < b) where
  trans hab hbc := decide_eq_true (Nat.lt_trans (of_decide_eq_true hab) (of_decide_eq_true hbc))
  ne hab := beq_eq_false_iff_ne.mpr (Nat.ne_of_lt (of_decide_eq_true hab))
  total hab := (Nat.lt_or_gt_of_ne (beq_eq_false_iff_ne.mp hab)).imp (fun h => decide_eq_true h) fun h => decide_eq_true h

theorem tests_agree_array : TestsAgree 3 (fun a b : ℕ => decide (a < b)) (.array true) id [3, 1, 2] :=
  (tests_agree_iff (.array true) (fun _ => lawfulLess_nat) id [3, 1, 2] fun _ hl _ => hl.length_le).mpr (Or.inl (by decide))

-- `allequal(identity, (1, 1))` throws.
theorem allequal_pair : Fits 2 [1, 1] ∧ ¬TestsAgree 2 (fun a b : ℕ => decide (a < b)) .tuple id [1, 1] := by
  refine ⟨fun l hl _ => hl.length_le, fun h => ?_⟩
  obtain ⟨b, hb, -⟩ := h.allequal
  have herror : allequal .tuple id [1, 1] = .error (.boundsError 2) := rfl
  rw [herror] at hb
  cases hb

end Agreement

end Joolia.Sets
