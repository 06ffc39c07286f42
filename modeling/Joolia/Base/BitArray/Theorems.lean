import Joolia.Base.BitArray.Moves
import Joolia.Base.BitArray.Shifts
import Joolia.Library.Fallible

namespace Joolia.BitArray

open Words Refine

-- The abstract behaviour: the same call on a list, with the same bounds checks.
-- Growth by `resize!` leaves the new elements undefined and is not described.
def listOp (op : Op (List Bool)) (l : List Bool) :
    Except BitError (List Bool × Ret (List Bool)) :=
  match op with
  | .push item => .ok (l ++ [item], .nothing)
  | .pop =>
      if l = [] then .error (.ArgumentError "argument must not be empty")
      else .ok (l.dropLast, .item (l.getD (l.length - 1) false))
  | .pushfirst item => .ok (item :: l, .nothing)
  | .popfirst =>
      if l = [] then .error (.ArgumentError "argument must not be empty")
      else .ok (l.tail, .item (l.getD 0 false))
  | .insert i item =>
      if 0 ≤ i ∧ i ≤ l.length then .ok (l.insertIdx i.toNat item, .nothing)
      else .error (.BoundsError i)
  | .deleteat i =>
      if 0 ≤ i ∧ i < l.length then .ok (l.eraseIdx i.toNat, .nothing)
      else .error (.BoundsError i)
  | .deleteatRange r =>
      if ¬0 ≤ r.start then .error (.BoundsError r.start)
      else if ¬r.stop < l.length then .error (.BoundsError l.length)
      else .ok (l.take r.start.toNat ++ l.drop (r.stop + 1).toNat, .nothing)
  | .append items =>
      if items.get l ≠ [] ∧ l.length + (items.get l).length ≥ 2 ^ 63 then .error .OverflowError
      else .ok (l ++ items.get l, .nothing)
  | .prepend items =>
      if items.get l ≠ [] ∧ l.length + (items.get l).length ≥ 2 ^ 63 then .error .OverflowError
      else .ok (items.get l ++ l, .nothing)
  | .splice r ins =>
      if ¬(0 ≤ r.start ∧ r.start ≤ l.length) then .error (.BoundsError r.start)
      else if ¬r.stop < l.length then .error (.BoundsError l.length)
      else .ok (l.take r.start.toNat ++ ins.get l ++ l.drop (r.stop + 1).toNat,
        .vector ((l.drop r.start.toNat).take r.length))
  | .resize n => if n < 0 then .error (.BoundsError n) else .ok (l.take n.toNat, .nothing)

-- The vector a call takes beside the mutated one.
def Op.operand {β : Type} (op : Op β) : Option (Operand β) :=
  match op with
  | .append items => some items
  | .prepend items => some items
  | .splice _ ins => some ins
  | _ => none

def Operand.map {α β : Type} (f : α → β) (x : Operand α) : Operand β :=
  match x with
  | .self => .self
  | .other a => .other (f a)

def Op.map {α β : Type} (f : α → β) (op : Op α) : Op β :=
  match op with
  | .push item => .push item
  | .pop => .pop
  | .pushfirst item => .pushfirst item
  | .popfirst => .popfirst
  | .insert i item => .insert i item
  | .deleteat i => .deleteat i
  | .deleteatRange r => .deleteatRange r
  | .append items => .append (items.map f)
  | .prepend items => .prepend (items.map f)
  | .splice r ins => .splice r (ins.map f)
  | .resize n => .resize n

def Ret.map {α β : Type} (f : α → β) (ret : Ret α) : Ret β :=
  match ret with
  | .nothing => .nothing
  | .item x => .item x
  | .vector v => .vector (f v)

-- `resize!` only shrinks; a growing one leaves the new elements undefined.
def Op.Shrinking {β : Type} (op : Op β) (len : ℕ) : Prop := ∀ n, op = .resize n → n ≤ len

-- Every vector a run can build: the empty one, the mutated one after a call and the
-- one `splice!` returns.
inductive Reachable : BitVector → Prop
  | new : Reachable BitVector.new
  | step {B B' : BitVector} {op : Op BitVector} {ret : Ret BitVector} (mem fresh : ℕ → Word)
      (hB : Reachable B) (hop : ∀ b, op.operand = some (.other b) → Reachable b)
      (hshrink : op.Shrinking B.len) (hexec : exec mem fresh op B = .ok (B', ret)) : Reachable B'
  | spliced {B B' v : BitVector} {op : Op BitVector} (mem fresh : ℕ → Word)
      (hB : Reachable B) (hop : ∀ b, op.operand = some (.other b) → Reachable b)
      (hshrink : op.Shrinking B.len) (hexec : exec mem fresh op B = .ok (B', .vector v)) :
      Reachable v

def RetRepr (ret : Ret BitVector) (ret' : Ret (List Bool)) : Prop :=
  match ret, ret' with
  | .nothing, .nothing => True
  | .item x, .item y => x = y
  | .vector v, .vector l => Represents v l
  | _, _ => False

theorem RetRepr.map_eq {ret : Ret BitVector} {ret' : Ret (List Bool)} (h : RetRepr ret ret') :
    ret.map BitVector.toList = ret' := by
  cases ret <;> cases ret' <;> try exact h.elim
  · rfl
  · exact congrArg Ret.item h
  · exact congrArg Ret.vector (Represents.toList_eq h)

theorem operandRepr_map {x : Operand BitVector} (hx : ∀ b, x = .other b → WellFormed b) :
    OperandRepr x (x.map BitVector.toList) := by
  cases x with
  | self => trivial
  | other b => exact (hx b rfl).repr

-- One call keeps the representation, returns what the list operation returns and
-- fails where it fails.
theorem exec_agree {B : BitVector} {l : List Bool} (h : Represents B l) (mem fresh : ℕ → Word)
    (op : Op BitVector) (hop : ∀ b, op.operand = some (.other b) → WellFormed b)
    (hshrink : op.Shrinking B.len) :
    Agree (fun s s' => Represents s.1 s'.1 ∧ RetRepr s.2 s'.2) (exec mem fresh op B)
      (listOp (op.map BitVector.toList) l) := by
  have hlen := h.len_eq
  cases op with
  | push item => exact ⟨push_repr h mem item, trivial⟩
  | pop =>
      by_cases hne : l = []
      · subst hne
        simp [exec, pop, listOp, Op.map, Except.map, Agree, hlen]
      · obtain ⟨B', hB', hrepr⟩ := pop_repr h hne
        simp only [exec, hB', listOp, Op.map, Except.map, if_neg hne]
        exact ⟨hrepr, rfl⟩
  | pushfirst item => exact ⟨pushfirst_repr h mem item, trivial⟩
  | popfirst =>
      by_cases hne : l = []
      · subst hne
        simp [exec, popfirst, listOp, Op.map, Except.map, Agree, hlen]
      · obtain ⟨B', hB', hrepr⟩ := popfirst_repr h hne
        simp only [exec, hB', listOp, Op.map, Except.map, if_neg hne]
        exact ⟨hrepr, rfl⟩
  | insert i item =>
      by_cases hi : 0 ≤ i ∧ i ≤ l.length
      · obtain ⟨B', hB', hrepr⟩ := insert_repr h mem hi item
        simp only [exec, hB', listOp, Op.map, Except.map, if_pos hi]
        exact ⟨hrepr, trivial⟩
      · simp [exec, insert, listOp, Op.map, Except.map, Agree, hlen, hi]
  | deleteat i =>
      by_cases hi : 0 ≤ i ∧ i < l.length
      · have hrepr := deleteatInt_repr h (i := i.toNat) (by omega)
        simp only [exec, deleteat, listOp, Op.map, Except.map, hlen, hi, not_true, if_false,
          and_self, if_true]
        exact ⟨hrepr, trivial⟩
      · simp [exec, deleteat, listOp, Op.map, Except.map, Agree, hlen, hi]
  | deleteatRange r =>
      by_cases hstart : 0 ≤ r.start
      · by_cases hstop : r.stop < l.length
        · obtain ⟨B', hB', hrepr⟩ := deleteatRange_repr h hstart hstop
          simp only [exec, hB', listOp, Op.map, Except.map, hstart, hstop, not_true, if_false]
          exact ⟨hrepr, trivial⟩
        · simp [exec, deleteatRange, listOp, Op.map, Except.map, Agree, hlen, hstart, hstop]
      · simp [exec, deleteatRange, listOp, Op.map, Except.map, Agree, hstart]
  | append items =>
      have hx := operandRepr_map (x := items) fun b hb => hop b (congrArg some hb)
      by_cases hbig : (items.map BitVector.toList).get l ≠ [] ∧
          l.length + ((items.map BitVector.toList).get l).length ≥ 2 ^ 63
      · simp only [exec, (append_overflow h mem hx hbig).1, listOp, Op.map, Except.map, if_pos hbig]
        rfl
      · obtain ⟨B', hB', hrepr⟩ := append_repr h mem hx hbig
        simp only [exec, hB', listOp, Op.map, Except.map, if_neg hbig]
        exact ⟨hrepr, trivial⟩
  | prepend items =>
      have hx := operandRepr_map (x := items) fun b hb => hop b (congrArg some hb)
      by_cases hbig : (items.map BitVector.toList).get l ≠ [] ∧
          l.length + ((items.map BitVector.toList).get l).length ≥ 2 ^ 63
      · simp only [exec, (append_overflow h mem hx hbig).2, listOp, Op.map, Except.map, if_pos hbig]
        rfl
      · obtain ⟨B', hB', hrepr⟩ := prepend_repr h mem hx hbig
        simp only [exec, hB', listOp, Op.map, Except.map, if_neg hbig]
        exact ⟨hrepr, trivial⟩
  | splice r ins =>
      have hx := operandRepr_map (x := ins) fun b hb => hop b (congrArg some hb)
      by_cases hstart : 0 ≤ r.start ∧ r.start ≤ l.length
      · by_cases hstop : r.stop < l.length
        · obtain ⟨B', v, hB', hrepr, hv⟩ := splice_repr h mem fresh hx hstart.1 hstop
          simp only [exec, hB', listOp, Op.map, Except.map, hstart, hstop, and_self, not_true,
            if_false]
          exact ⟨hrepr, hv⟩
        · simp [exec, splice, listOp, Op.map, Except.map, Agree, hlen, hstart, hstop]
      · simp [exec, splice, listOp, Op.map, Except.map, Agree, hlen, hstart]
  | resize n =>
      have hle := hshrink n rfl
      by_cases hn : n < 0
      · have hne : ¬n = B.len := by omega
        simp [exec, resize, listOp, Op.map, Except.map, Agree, hn, hne]
      · obtain ⟨B', hB', hrepr⟩ := resize_repr h mem (by omega) (by omega : n ≤ l.length)
        simp only [exec, hB', listOp, Op.map, Except.map, if_neg hn]
        exact ⟨hrepr, trivial⟩

theorem Reachable.wellFormed {B : BitVector} (h : Reachable B) : WellFormed B := by
  induction h with
  | new => exact new_repr.wellFormed
  | step mem fresh hB hop hshrink hexec ih ihop =>
      obtain ⟨s, -, hrepr, -⟩ := (exec_agree ih.repr mem fresh _ ihop hshrink).of_ok hexec
      exact hrepr.wellFormed
  | spliced mem fresh hB hop hshrink hexec ih ihop =>
      obtain ⟨⟨l, ret⟩, -, -, hret⟩ := (exec_agree ih.repr mem fresh _ ihop hshrink).of_ok hexec
      cases ret with
      | vector l => exact Represents.wellFormed hret
      | nothing => exact hret.elim
      | item x => exact hret.elim

-- Every reachable vector is well formed, and every further call on it is the list
-- operation: the same vector, the same returned value, the same error.
theorem bitvector_refines_list {B : BitVector} (hB : Reachable B) :
    B.chunks.length = numBitChunks B.len ∧ (∀ i, B.len ≤ i → bitAt B.chunks i = false) ∧
      ∀ (mem fresh : ℕ → Word) (op : Op BitVector),
        (∀ b, op.operand = some (.other b) → Reachable b) → op.Shrinking B.len →
        (exec mem fresh op B).map (fun s => (s.1.toList, s.2.map BitVector.toList)) =
          listOp (op.map BitVector.toList) B.toList := by
  have hwf := hB.wellFormed
  refine ⟨hwf.length_chunks, hwf.past_end, fun mem fresh op hop hshrink => ?_⟩
  have hagree := exec_agree hwf.repr mem fresh op (fun b hb => (hop b hb).wellFormed) hshrink
  refine hagree.map_eq fun s s' hs => ?_
  rw [hs.1.toList_eq, hs.2.map_eq]

theorem bitvector_refines_list_append_self :
    (exec (fun _ => 5) (fun _ => 5) (.append .self) (push (fun _ => 7) BitVector.new true)).map
      (fun s => (s.1.toList, s.2.map BitVector.toList)) = .ok ([true, true], .nothing) := by
  have hpush : Reachable (push (fun _ => 7) BitVector.new true) := by
    refine Reachable.step (fun _ => 7) (fun _ => 7) .new ?_ ?_
      (show exec (fun _ => 7) (fun _ => 7) (.push true) BitVector.new = _ from rfl)
    · intro b hb
      cases hb
    · intro n hn
      cases hn
  refine ((bitvector_refines_list hpush).2.2 _ _ _ ?_ ?_).trans rfl
  · intro b hb
    cases hb
  · intro n hn
    cases hn

end Joolia.BitArray
