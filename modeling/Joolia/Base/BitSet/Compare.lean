import Joolia.Base.BitSet.Theorems

namespace Joolia.Bitset

open Words BitArray

section Scans

theorem andAlso_some (p q : Bool) : andAlso (some p) (some q) = some (p && q) := by cases p <;> rfl

-- Where every read is safe, a scan says whether all tests hold.
theorem allOf_eq (lo hi : ℤ) (inside test : ℤ → Bool) (hin : ∀ i, lo ≤ i → i < hi → inside i = true) :
    ∃ b, allOf lo hi inside test = some b ∧ (b = true ↔ ∀ i, lo ≤ i → i < hi → test i = true) := by
  have hfold : ∀ l : List ℕ, (∀ k ∈ l, inside (lo + k) = true) →
      l.foldr (fun (k : ℕ) rest => if inside (lo + k) then if test (lo + k) then rest else some false else none) (some true) =
        some (l.all fun k => test (lo + k)) := by
    intro l hl
    induction l with
    | nil => rfl
    | cons k l ih =>
        rw [List.foldr_cons, if_pos (hl k List.mem_cons_self), ih fun k hk => hl k (List.mem_cons_of_mem _ hk), List.all_cons]
        cases test (lo + k) <;> rfl
  refine ⟨_, hfold _ fun k hk => hin _ (by omega) ?_, ?_⟩
  · rw [List.mem_range] at hk
    omega
  · rw [List.all_eq_true]
    constructor
    · intro h i hlo hhi
      have hi := h (i - lo).toNat (List.mem_range.2 (by omega))
      rwa [show lo + ((i - lo).toNat : ℤ) = i by omega] at hi
    · intro h k hk
      rw [List.mem_range] at hk
      exact h _ (by omega) (by omega)

end Scans

section Windows

-- Two windows hold the same bits if and only if they hold the same words.
theorem bit_ext {a b : List Word} {off off' : ℤ} :
    (∀ n, bit a off n = bit b off' n) ↔ ∀ k, window a off k = window b off' k := by
  refine ⟨fun h k => BitVec.eq_of_getLsbD_eq fun p hp => ?_, fun h n => bit_congr h n⟩
  have hbit := h (64 * k + p)
  rw [bit, bit] at hbit
  rwa [show (64 * k + (p : ℤ)) / 64 = k by omega, show ((64 * k + (p : ℤ)) % 64).toNat = p by omega] at hbit

theorem bit_imp {a b : List Word} {off off' : ℤ} :
    (∀ n, bit a off n = true → bit b off' n = true) ↔ ∀ k, window a off k = window a off k &&& window b off' k := by
  constructor
  · intro h k
    refine BitVec.eq_of_getLsbD_eq fun p hp => ?_
    have hbit := h (64 * k + p)
    rw [bit, bit, show (64 * k + (p : ℤ)) / 64 = k by omega, show ((64 * k + (p : ℤ)) % 64).toNat = p by omega] at hbit
    rw [BitVec.getLsbD_and]
    cases hp : (window a off k).getLsbD p with
    | false => rfl
    | true => rw [hbit hp, Bool.and_self]
  · intro h n hn
    rw [bit, h, BitVec.getLsbD_and, Bool.and_eq_true] at hn
    exact hn.2

end Windows

section Equality

theorem isIndex_iff {a : List Word} {i : ℤ} : isIndex a i = true ↔ 0 ≤ i ∧ i < a.length := decide_eq_true_iff

theorem word_window (a : List Word) (off : ℤ) {i : ℤ} (hi : 0 ≤ i) : word a i.toNat = window a off (off + i) := by
  rw [word_eq_window a off, Int.toNat_of_nonneg hi]

theorem check0_eq {a : List Word} {b e : ℤ} (hlo : 0 ≤ b) (hhi : e < a.length) : ∃ ok, check0 a b e = some ok ∧
    (ok = true ↔ ∀ i, b ≤ i → i ≤ e → word a i.toNat = 0) := by
  obtain ⟨ok, hok, hiff⟩ := allOf_eq b (e + 1) (isIndex a) (fun i => word a i.toNat == 0) fun i hi hi' =>
    isIndex_iff.2 ⟨by omega, by omega⟩
  refine ⟨ok, hok, hiff.trans ?_⟩
  simp only [beq_iff_eq, Int.lt_add_one_iff]

theorem memcmp_eq {a1 a2 : List Word} {i j n : ℤ} (hi : 0 ≤ i) (hin : 0 < n → i + n ≤ a1.length) (hj : 0 ≤ j)
    (hjn : 0 < n → j + n ≤ a2.length) : ∃ ok, memcmp a1 i a2 j n = some ok ∧
      (ok = true ↔ ∀ k, 0 ≤ k → k < n → word a1 (i + k).toNat = word a2 (j + k).toNat) := by
  obtain ⟨ok, hok, hiff⟩ := allOf_eq 0 n (fun k => isIndex a1 (i + k) && isIndex a2 (j + k))
    (fun k => word a1 (i + k).toNat == word a2 (j + k).toNat) fun k hk hk' =>
      Bool.and_eq_true _ _ ▸ ⟨isIndex_iff.2 ⟨by omega, by omega⟩, isIndex_iff.2 ⟨by omega, by omega⟩⟩
  refine ⟨ok, hok, hiff.trans ?_⟩
  simp only [beq_iff_eq]

-- What the three tests of `==` say about the chunks, the first vector lying lower.
structure SameChunks (a1 : List Word) (b1 : ℤ) (a2 : List Word) (b2 overlap0 : ℤ) : Prop where
  below : ∀ i, 0 ≤ i → i ≤ a1.length - overlap0 - 1 → word a1 i.toNat = 0
  above : ∀ i, b2 - b1 + a2.length ≤ i → i ≤ a1.length - 1 → a2.length ≤ overlap0 → word a1 i.toNat = 0
  rest : ∀ i, overlap0 ≤ i → i ≤ a2.length - 1 → overlap0 < a2.length → word a2 i.toNat = 0
  overlap : ∀ i, 0 ≤ i → i < min (a2.length : ℤ) overlap0 → word a1 (b2 - b1 + i).toNat = word a2 i.toNat

theorem sameChunks_iff {a1 a2 : List Word} {b1 b2 overlap0 : ℤ} (h : b1 ≤ b2) (hoverlap0 : overlap0 = max 0 (a1.length + b1 - b2)) :
    SameChunks a1 b1 a2 b2 overlap0 ↔ ∀ k, window a1 b1 k = window a2 b2 k := by
  constructor
  · intro hsame k
    by_cases hbelow : k < b2
    · rw [window_of_lt hbelow]
      by_cases hlow : k < b1
      · exact window_of_lt hlow
      by_cases hhigh : b1 + a1.length ≤ k
      · exact window_of_ge hhigh
      · have hzero := hsame.below (k - b1) (by omega) (by omega)
        rwa [word_window a1 b1 (by omega), show b1 + (k - b1) = k by omega] at hzero
    by_cases hin : k - b2 < min (a2.length : ℤ) overlap0
    · have heq := hsame.overlap (k - b2) (by omega) hin
      rw [word_window a1 b1 (by omega), word_window a2 b2 (by omega)] at heq
      rwa [show b1 + (b2 - b1 + (k - b2)) = k by omega, show b2 + (k - b2) = k by omega] at heq
    have hfirst : window a1 b1 k = 0 := by
      by_cases hhigh : b1 + a1.length ≤ k
      · exact window_of_ge hhigh
      · have hzero := hsame.above (k - b1) (by omega) (by omega) (by omega)
        rwa [word_window a1 b1 (by omega), show b1 + (k - b1) = k by omega] at hzero
    have hsecond : window a2 b2 k = 0 := by
      by_cases hhigh : b2 + a2.length ≤ k
      · exact window_of_ge hhigh
      · have hzero := hsame.rest (k - b2) (by omega) (by omega) (by omega)
        rwa [word_window a2 b2 (by omega), show b2 + (k - b2) = k by omega] at hzero
    rw [hfirst, hsecond]
  · intro heq
    refine ⟨fun i hi hi' => ?_, fun i hi hi' hincl => ?_, fun i hi hi' hincl => ?_, fun i hi hi' => ?_⟩
    · rw [word_window a1 b1 hi, heq, window_of_lt (by omega)]
    · rw [word_window a1 b1 (by omega), heq, window_of_ge (by omega)]
    · rw [word_window a2 b2 (by omega), ← heq, window_of_ge (by omega)]
    · rw [word_window a1 b1 (by omega), word_window a2 b2 hi, heq]
      congr 1
      omega

theorem memcmp_none (a1 : List Word) (i : ℤ) (a2 : List Word) (j : ℤ) {n : ℤ} (hn : ¬n > 0) : memcmp a1 i a2 j n = some true := by
  rw [memcmp, allOf, show (n - 0).toNat = 0 by omega]
  rfl

theorem eqOrdered_spec {s1 s2 : BitSet} (h : s1.offset ≤ s2.offset) : ∃ b, eqOrdered s1 s2 = some b ∧
    (b = true ↔ ∀ k, window s1.bits s1.offset k = window s2.bits s2.offset k) := by
  obtain ⟨a1, b1⟩ := s1
  obtain ⟨a2, b2⟩ := s2
  dsimp only [eqOrdered] at h ⊢
  obtain ⟨overlap0, hoverlap0⟩ : ∃ o, o = max 0 (a1.length + b1 - b2) := ⟨_, rfl⟩
  rw [← hoverlap0, ← sameChunks_iff h hoverlap0]
  obtain ⟨below, hbelow, hbelow'⟩ := check0_eq (a := a1) (b := 0) (e := a1.length - overlap0 - 1) (by omega) (by omega)
  obtain ⟨above, habove, habove'⟩ := check0_eq (a := a1) (b := b2 - b1 + a2.length) (e := a1.length - 1) (by omega) (by omega)
  obtain ⟨rest, hrest, hrest'⟩ := check0_eq (a := a2) (b := overlap0) (e := a2.length - 1) (by omega) (by omega)
  obtain ⟨same, hsame, hsame'⟩ := @memcmp_eq a1 a2 (b2 - b1) 0 (min (a2.length : ℤ) overlap0)
    (by omega) (by omega) (by omega) (by omega)
  have hcmp : ∀ n, (if n > 0 then memcmp a1 (b2 - b1) a2 0 n else some true) = memcmp a1 (b2 - b1) a2 0 n := by
    intro n
    split_ifs with hn
    · rfl
    · exact (memcmp_none _ _ _ _ hn).symm
  simp only [zero_add] at hsame'
  rw [hbelow, hcmp]
  by_cases hincl : overlap0 ≥ a2.length
  · rw [min_eq_left hincl] at hsame
    rw [if_pos hincl, if_pos hincl, habove, hsame, andAlso_some, andAlso_some]
    refine ⟨_, rfl, ?_⟩
    rw [Bool.and_eq_true, Bool.and_eq_true, hbelow', habove', hsame']
    exact ⟨fun ⟨hb, ha, hs⟩ => ⟨hb, fun i hi hi' _ => ha i hi hi', fun i hi hi' hlt => absurd hlt (by omega), hs⟩,
      fun hsame => ⟨hsame.below, fun i hi hi' => hsame.above i hi hi' hincl, hsame.overlap⟩⟩
  · rw [min_eq_right (by omega)] at hsame
    rw [if_neg hincl, if_neg hincl, hrest, hsame, andAlso_some, andAlso_some]
    refine ⟨_, rfl, ?_⟩
    rw [Bool.and_eq_true, Bool.and_eq_true, hbelow', hrest', hsame']
    exact ⟨fun ⟨hb, hr, hs⟩ => ⟨hb, fun i hi hi' hle => absurd hle hincl, fun i hi hi' _ => hr i hi hi', hs⟩,
      fun hsame => ⟨hsame.below, fun i hi hi' => hsame.rest i hi hi' (by omega), hsame.overlap⟩⟩

theorem eq_spec (s1 s2 : BitSet) : ∃ b, eq s1 s2 = some b ∧
    (b = true ↔ ∀ k, window s1.bits s1.offset k = window s2.bits s2.offset k) := by
  unfold eq
  split_ifs with h
  · obtain ⟨b, hb, hiff⟩ := eqOrdered_spec (Int.le_of_lt h)
    exact ⟨b, hb, hiff.trans ⟨fun h k => (h k).symm, fun h k => (h k).symm⟩⟩
  · exact eqOrdered_spec (by omega)

end Equality

section Subset

-- What the three tests of `issubset` say about the chunks.
structure SubChunks (a b : List Word) (shift : ℤ) : Prop where
  below : ∀ i, 0 ≤ i → i < min (a.length : ℤ) shift → word a i.toNat = 0
  overlap : ∀ i, max 0 shift ≤ i → i < min (a.length : ℤ) (shift + b.length) →
    word a i.toNat = word a i.toNat &&& word b (i - shift).toNat
  above : ∀ i, max 0 (shift + b.length) ≤ i → i < a.length → word a i.toNat = 0

theorem subChunks_iff {a b : List Word} {off off' : ℤ} : SubChunks a b (off' - off) ↔
    ∀ k, window a off k = window a off k &&& window b off' k := by
  have hzero : ∀ w : Word, 0 = 0 &&& w := fun w => BitVec.zero_and.symm
  have hzero' : ∀ w : Word, w &&& 0 = 0 := fun w => BitVec.and_zero
  constructor
  · intro hsub k
    by_cases hlow : k < off
    · rw [window_of_lt hlow]
      exact hzero _
    by_cases hhigh : off + a.length ≤ k
    · rw [window_of_ge hhigh]
      exact hzero _
    have hk : word a (k - off).toNat = window a off k := by
      rw [word_window a off (by omega)]
      congr 1
      omega
    by_cases hbelow : k < off'
    · rw [← hk, hsub.below (k - off) (by omega) (by omega)]
      exact hzero _
    by_cases habove : off' + b.length ≤ k
    · rw [← hk, hsub.above (k - off) (by omega) (by omega)]
      exact hzero _
    have hover := hsub.overlap (k - off) (by omega) (by omega)
    rw [hk, word_window b off' (by omega)] at hover
    rwa [show off' + (k - off - (off' - off)) = k by omega] at hover
  · intro hand
    refine ⟨fun i hi hi' => ?_, fun i hi hi' => ?_, fun i hi hi' => ?_⟩
    · rw [word_window a off hi, hand, window_of_lt (a := b) (by omega), hzero']
    · rw [word_window a off (by omega), word_window b off' (by omega), show off' + (i - (off' - off)) = off + i by omega, ← hand]
    · rw [word_window a off (by omega), hand, window_of_ge (a := b) (by omega), hzero']

theorem issubset_spec (a b : BitSet) : ∃ ok, issubset a b = some ok ∧
    (ok = true ↔ ∀ k, window a.bits a.offset k = window a.bits a.offset k &&& window b.bits b.offset k) := by
  rw [← subChunks_iff]
  unfold issubset
  dsimp only
  obtain ⟨shift, hshift⟩ : ∃ d, d = b.offset - a.offset := ⟨_, rfl⟩
  rw [← hshift]
  obtain ⟨below, hbelow, hbelow'⟩ := allOf_eq 0 (min (a.bits.length : ℤ) shift) (isIndex a.bits)
    (fun i => word a.bits i.toNat == 0) fun i hi hi' => isIndex_iff.2 ⟨hi, by omega⟩
  obtain ⟨above, habove, habove'⟩ := allOf_eq (max 0 (shift + b.bits.length)) a.bits.length (isIndex a.bits)
    (fun i => word a.bits i.toNat == 0) fun i hi hi' => isIndex_iff.2 ⟨by omega, by omega⟩
  obtain ⟨both, hover, hover'⟩ := allOf_eq (max 0 shift) (min (a.bits.length : ℤ) (shift + b.bits.length))
    (fun i => isIndex a.bits i && isIndex b.bits (i - shift))
    (fun i => word a.bits i.toNat == word a.bits i.toNat &&& word b.bits (i - shift).toNat) fun i hi hi' =>
      Bool.and_eq_true _ _ ▸ ⟨isIndex_iff.2 ⟨by omega, by omega⟩, isIndex_iff.2 ⟨by omega, by omega⟩⟩
  rw [hbelow, hover, habove, andAlso_some, andAlso_some]
  refine ⟨_, rfl, ?_⟩
  simp only [beq_iff_eq] at hbelow' habove' hover'
  rw [Bool.and_eq_true, Bool.and_eq_true, hbelow', hover', habove']
  exact ⟨fun ⟨hb, ho, ha⟩ => ⟨hb, ho, ha⟩, fun hsub => ⟨hsub.below, hsub.overlap, hsub.above⟩⟩

end Subset

-- In every reachable state `==` and `issubset` read no chunk outside the vectors and
-- compare the integers of the two sets; `==` is `issubset` both ways.
theorem comparisons_exact {st : Store} (hst : Reachable st) (i j : ℕ) :
    ∃ same sub sup, eq (st i) (st j) = some same ∧ eq (st j) (st i) = some same ∧
      issubset (st i) (st j) = some sub ∧ issubset (st j) (st i) = some sup ∧
      (same = true ↔ ∀ n, isIn n (st i) = isIn n (st j)) ∧
      (sub = true ↔ ∀ n, isIn n (st i) = true → isIn n (st j) = true) ∧
      (sup = true ↔ ∀ n, isIn n (st j) = true → isIn n (st i) = true) ∧ same = (sub && sup) := by
  obtain ⟨same, hsame, hsame'⟩ := eq_spec (st i) (st j)
  obtain ⟨same₂, hsame₂, hsame₂'⟩ := eq_spec (st j) (st i)
  obtain ⟨sub, hsub, hsub'⟩ := issubset_spec (st i) (st j)
  obtain ⟨sup, hsup, hsup'⟩ := issubset_spec (st j) (st i)
  rw [← bit_ext] at hsame' hsame₂'
  rw [← bit_imp] at hsub' hsup'
  simp only [← isIn_eq_bit (hst.inv _)] at hsame' hsame₂' hsub' hsup'
  have hsymm : same₂ = same := by
    rw [Bool.eq_iff_iff, hsame', hsame₂']
    exact ⟨fun h n => (h n).symm, fun h n => (h n).symm⟩
  refine ⟨same, sub, sup, hsame, hsymm ▸ hsame₂, hsub, hsup, hsame', hsub', hsup', ?_⟩
  rw [Bool.eq_iff_iff, Bool.and_eq_true, hsame', hsub', hsup']
  constructor
  · intro h
    exact ⟨fun n hn => h n ▸ hn, fun n hn => h n ▸ hn⟩
  · rintro ⟨h, h'⟩ n
    rw [Bool.eq_iff_iff]
    exact ⟨h n, h' n⟩

theorem comparisons_exact_twoSets : ∃ same sub sup, eq (twoSets 0) (twoSets 1) = some same ∧
    issubset (twoSets 0) (twoSets 2) = some sub ∧ issubset (twoSets 2) (twoSets 0) = some sup ∧
    same = false ∧ sub = false ∧ sup = true := by
  obtain ⟨same, -, -, hsame, -, -, -, hiff, -⟩ := comparisons_exact reachable_twoSets 0 1
  obtain ⟨-, sub, sup, -, -, hsub, hsup, -, hsub', hsup', -⟩ := comparisons_exact reachable_twoSets 0 2
  refine ⟨same, sub, sup, hsame, hsub, hsup, ?_, ?_, hsup'.2 fun n hn => ?_⟩
  · rw [Bool.eq_false_iff, ne_eq, hiff]
    intro h
    exact absurd (h (-70)) (by decide)
  · rw [Bool.eq_false_iff, ne_eq, hsub']
    intro h
    exact absurd (h (-70) (by decide)) (by decide)
  · have hnew : twoSets 2 = BitSet.new := rfl
    rw [hnew, isIn_eq_bit Inv.new, bit, BitSet.new, window_nil] at hn
    simp at hn

end Joolia.Bitset
