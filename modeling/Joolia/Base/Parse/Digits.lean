import Joolia.Base.IntFuncs.Text
import Joolia.Base.Parse

namespace Joolia.Parse

open IntFuncs Fallible

-- The character of a digit.
def digitChar (b d : ℕ) : Char :=
  if d < 10 then Char.ofNat (0x30 + d)
  else if b ≤ 36 then Char.ofNat (0x61 + (d - 10))
  else if d < 36 then Char.ofNat (0x41 + (d - 10))
  else Char.ofNat (0x61 + (d - 36))

-- What the reader looks at in a digit.
def DigitChar (b d : ℕ) : Prop :=
  convertDigit (firstByte (digitChar b d)) b = d ∧ isspace (digitChar b d) = false ∧ digitChar b d ≠ '-' ∧
    digitChar b d ≠ '+' ∧ digitChar b d = Char.ofNat (digitByte b d).toNat

instance (b d : ℕ) : Decidable (DigitChar b d) := inferInstanceAs (Decidable (_ ∧ _))

theorem digitChar_lower : ∀ d < 36, DigitChar 36 d := by decide

theorem digitChar_upper : ∀ d < 62, DigitChar 62 d := by decide

-- The base matters only in which letters come first.
theorem DigitChar.of_base {b b' d : ℕ} (hbase : b ≤ 36 ↔ b' ≤ 36) (hd : d ≠ b') (h : DigitChar b' d) :
    DigitChar b d := by
  obtain ⟨hconvert, hspace, hminus, hplus, hbyte⟩ := h
  have hchar : digitChar b d = digitChar b' d := by simp only [digitChar, hbase]
  have hbyte' : digitByte b d = digitByte b' d := by simp only [digitByte, hbase]
  have hbase' : (b : ℤ) ≤ 36 ↔ (b' : ℤ) ≤ 36 := by omega
  rw [DigitChar, hchar, hbyte']
  refine ⟨?_, hspace, hminus, hplus, hbyte⟩
  rw [convertDigit] at hconvert ⊢
  simp only [hbase']
  generalize firstByte (digitChar b' d) = c at hconvert ⊢
  generalize (if (b' : ℤ) ≤ 36 then (10 : ℤ) else 36) = a at hconvert ⊢
  split_ifs at hconvert ⊢
  · exact hconvert
  · exact hconvert
  · exact hconvert
  · omega

theorem digitChar_table (b : ℕ) (hb : b < 63) (d : ℕ) (hd : d < b) : DigitChar b d := by
  by_cases hbase : b ≤ 36
  · exact (digitChar_lower d (by omega)).of_base (by omega) (by omega)
  · exact (digitChar_upper d (by omega)).of_base (by omega) (by omega)

-- The value of a list of digits, read after the value `v`.
def value (b : ℕ) (ds : List ℕ) (v : ℕ) : ℕ := ds.foldl (fun n d => n * b + d) v

theorem value_cons (b d : ℕ) (ds : List ℕ) (v : ℕ) : value b (d :: ds) v = value b ds (v * b + d) := rfl

theorem le_value {b : ℕ} (hb : 2 ≤ b) (ds : List ℕ) (v : ℕ) : v ≤ value b ds v := by
  induction ds generalizing v with
  | nil => exact Nat.le_refl v
  | cons d ds ih =>
      rw [value_cons]
      have hnext := ih (v * b + d)
      have hmul := Nat.le_mul_of_pos_right v (by omega : 0 < b)
      omega

section Loops

variable {T : IntType} {b : ℕ} {sgn : ℤ} (s : List Char)

theorem typemin_le_zero (T : IntType) : T.typemin ≤ 0 := by
  rw [IntType.typemin]
  split_ifs
  · have : (0 : ℤ) < 2 ^ (T.width.bits - 1) := by positivity
    omega
  · exact le_refl 0

-- Below the limit `m` one more digit does not overflow.
theorem wrap_step {m : ℤ} (hm : m * b + (b - 1) ≤ T.typemax) {v d : ℕ} (hle : (v : ℤ) ≤ m) (hd : d < b) :
    T.wrap (T.wrap ((v : ℤ) * b) + d) = ((v * b + d : ℕ) : ℤ) ∧ ((v * b + d : ℕ) : ℤ) ≤ T.typemax := by
  have hmin := typemin_le_zero T
  have hmul : (v : ℤ) * b ≤ m * b := Int.mul_le_mul_of_nonneg_right hle (by omega)
  have hpos : (0 : ℤ) ≤ (v : ℤ) * b := by positivity
  have hproduct : T.wrap ((v : ℤ) * b) = v * b := wrap_eq_self T (by omega) (by omega)
  push_cast
  rw [hproduct, wrap_eq_self T (by omega) (by omega)]
  exact ⟨rfl, by omega⟩

-- The first loop reads digits as long as nothing can overflow.
theorem unchecked_spec (hb : 2 ≤ b) (hsmall : b ≤ 62) {m : ℤ} (hm : m * b + (b - 1) ≤ T.typemax) (v d : ℕ)
    (ds : List ℕ) (hv : v ≤ T.typemax) (hd : d < b) (hds : ∀ e ∈ ds, e < b) :
    (unchecked T b sgn s m v (digitChar b d) (ds.map (digitChar b)) = .ok (.inl (T.wrap (value b (d :: ds) v * sgn))) ∧
      (value b (d :: ds) v : ℤ) ≤ T.typemax) ∨
    ∃ (v' d' : ℕ) (ds' : List ℕ), unchecked T b sgn s m v (digitChar b d) (ds.map (digitChar b)) =
        .ok (.inr (v', digitChar b d', ds'.map (digitChar b))) ∧
      (v' : ℤ) ≤ T.typemax ∧ d' < b ∧ (∀ e ∈ ds', e < b) ∧ value b (d' :: ds') v' = value b (d :: ds) v := by
  induction ds generalizing v d with
  | nil =>
      obtain ⟨hconvert, -⟩ := digitChar_table b (by omega) d hd
      rw [unchecked]
      by_cases hle : (v : ℤ) ≤ m
      · obtain ⟨hstep, hmax⟩ := wrap_step hm hle hd
        refine .inl ⟨?_, hmax⟩
        rw [if_pos hle, hconvert, if_neg (by omega), hstep]
        rfl
      · refine .inr ⟨v, d, [], ?_, hv, hd, hds, rfl⟩
        rw [if_neg hle]
  | cons e ds ih =>
      obtain ⟨hconvert, -⟩ := digitChar_table b (by omega) d hd
      have he := hds e (by simp)
      obtain ⟨-, hspace, -⟩ := digitChar_table b (by omega) e he
      rw [unchecked]
      by_cases hle : (v : ℤ) ≤ m
      · obtain ⟨hstep, hmax⟩ := wrap_step hm hle hd
        rw [if_pos hle, hconvert, if_neg (by omega), hstep]
        simp only [List.map_cons, hspace, Bool.false_eq_true, if_false]
        exact ih (v * b + d) e hmax he (fun e' he' => hds e' (by simp [he']))
      · refine .inr ⟨v, d, e :: ds, ?_, hv, hd, hds, rfl⟩
        rw [if_neg hle]

-- What lies between zero and the result is a value of the type.
theorem between_range {total : ℕ} (hsgn : sgn = 1 ∨ (sgn = -1 ∧ T.signed = true)) (hmax : 0 ≤ T.typemax)
    (hlo : T.typemin ≤ total * sgn) (hhi : total * sgn ≤ T.typemax) {y : ℕ} (hy : y ≤ total) :
    T.wrap (y * sgn) = y * sgn := by
  have hmin := typemin_le_zero T
  rcases hsgn with rfl | ⟨rfl, -⟩
  · exact wrap_eq_self T (by omega) (by omega)
  · exact wrap_eq_self T (by omega) (by omega)

-- A pass of the second loop.
theorem checked_step (hb : 2 ≤ b) (hsmall : b ≤ 62) (hsgn : sgn = 1 ∨ (sgn = -1 ∧ T.signed = true))
    (hmax : 0 ≤ T.typemax) {v d total : ℕ} (hd : d < b) (htotal : v * b + d ≤ total)
    (hlo : T.typemin ≤ total * sgn) (hhi : total * sgn ≤ T.typemax) (rest : List Char) :
    checked T b sgn s (v * sgn) (digitChar b d) rest =
      match rest with
      | [] => .ok ((v * b + d : ℕ) * sgn)
      | c :: rest => checked T b sgn s ((v * b + d : ℕ) * sgn) c rest := by
  obtain ⟨hconvert, hspace, -⟩ := digitChar_table b (by omega) d hd
  have hdigit : (if T.signed = true then T.wrap ((d : ℤ) * sgn) else (d : ℤ)) = d * sgn := by
    split_ifs with hsigned
    · exact between_range hsgn hmax hlo hhi (by omega)
    · rcases hsgn with rfl | ⟨-, hs⟩
      · omega
      · exact absurd hs hsigned
  have hproduct : T.wrap ((v : ℤ) * sgn * b) = v * sgn * b := by
    have h := between_range hsgn hmax hlo hhi (y := v * b) (by omega)
    have hcomm : ((v * b : ℕ) : ℤ) * sgn = v * sgn * b := by
      push_cast
      ring
    rwa [hcomm] at h
  have htotal' : ((v * b + d : ℕ) : ℤ) * sgn = v * sgn * b + d * sgn := by
    push_cast
    ring
  have hsum : T.wrap ((v : ℤ) * sgn * b + d * sgn) = v * sgn * b + d * sgn := by
    have h := between_range hsgn hmax hlo hhi (y := v * b + d) htotal
    rwa [htotal'] at h
  rw [checked]
  simp only [hspace, Bool.false_eq_true, if_false, hconvert, hdigit, hproduct, hsum, htotal', ne_eq, not_true_eq_false,
    or_self, if_neg (by omega : ¬ (b : ℤ) ≤ d)]
  all_goals cases rest <;> rfl

-- The second loop reads the other digits with the sign in place.
theorem checked_spec (hb : 2 ≤ b) (hsmall : b ≤ 62) (hsgn : sgn = 1 ∨ (sgn = -1 ∧ T.signed = true))
    (hmax : 0 ≤ T.typemax) (v d : ℕ) (ds : List ℕ) (hd : d < b) (hds : ∀ e ∈ ds, e < b)
    (hlo : T.typemin ≤ value b (d :: ds) v * sgn) (hhi : value b (d :: ds) v * sgn ≤ T.typemax) :
    checked T b sgn s (v * sgn) (digitChar b d) (ds.map (digitChar b)) = .ok (value b (d :: ds) v * sgn) := by
  induction ds generalizing v d with
  | nil => rw [checked_step s hb hsmall hsgn hmax hd (le_value hb [] (v * b + d)) hlo hhi]; rfl
  | cons e ds ih =>
      have hle := le_value hb (e :: ds) (v * b + d)
      rw [checked_step s hb hsmall hsgn hmax hd hle hlo hhi]
      exact ih (v * b + d) e (hds e (by simp)) (fun e' he' => hds e' (by simp [he'])) hlo hhi

end Loops

-- A word of the same width is at least a byte.
theorem base_le_typemax (T : IntType) : 62 < T.typemax := by
  obtain ⟨signed, width⟩ := T
  cases signed <;> cases width <;> decide

-- Behind the preamble the digits are read to their end.
theorem tryparseInternal_digits {T : IntType} {b : ℕ} (hb : 2 ≤ b) (hsmall : b ≤ 62) {s : List Char} {base sgn : ℤ}
    {d : ℕ} {ds : List ℕ} (hds : ∀ e ∈ d :: ds, e < b) (hsgn : sgn = 1 ∨ (sgn = -1 ∧ T.signed = true))
    (hpreamble : parseintPreamble T.signed base s = (sgn, (b : ℤ), some ((d :: ds).map (digitChar b))))
    (hlo : T.typemin ≤ value b (d :: ds) 0 * sgn) (hhi : value b (d :: ds) 0 * sgn ≤ T.typemax) :
    tryparseInternal T s base = .ok (value b (d :: ds) 0 * sgn) := by
  have hlarge := base_le_typemax T
  have hd := hds d (by simp)
  have hds' : ∀ e ∈ ds, e < b := fun e he => hds e (by simp [he])
  have hne : ¬ (sgn = 0 ∧ (b : ℤ) = 0 ∧ some ((d :: ds).map (digitChar b)) = none) := by simp
  rw [tryparseInternal, hpreamble]
  dsimp only
  rw [if_neg hne, if_neg (by omega)]
  simp only [List.map_cons]
  -- the limit below which the first loop stays
  obtain ⟨m, hm, hlimit⟩ : ∃ m : ℤ, (if (b : ℤ) = 10 then (T.typemax - 9) / 10
      else if (b : ℤ) = 16 then (T.typemax - 15) / 16 else (T.typemax - b + 1) / b) = m ∧
      m * b + (b - 1) ≤ T.typemax := by
    refine ⟨_, rfl, ?_⟩
    split_ifs with h10 h16
    · rw [h10]
      omega
    · rw [h16]
      omega
    · have := Int.ediv_mul_le (T.typemax - b + 1) (by omega : (b : ℤ) ≠ 0)
      omega
  rw [hm]
  rcases @unchecked_spec T b sgn s hb hsmall m hlimit 0 d ds (by omega) hd hds' with
    ⟨hloop, -⟩ | ⟨v, e, es, hloop, hv, he, hes, hvalue⟩
  · rw [Int.natCast_zero] at hloop
    rw [hloop, ok_bind]
    exact congrArg Except.ok (wrap_eq_self T hlo hhi)
  · rw [Int.natCast_zero] at hloop
    rw [hloop, ok_bind]
    rw [← hvalue] at hlo hhi ⊢
    have hstart : (if T.signed = true then T.wrap ((v : ℤ) * sgn) else (v : ℤ)) = v * sgn := by
      split_ifs with hsigned
      · have hle := le_value hb es (v * b + e)
        have hmul := Nat.le_mul_of_pos_right v (by omega : 0 < b)
        exact between_range hsgn (by omega) hlo hhi (by rw [value_cons]; omega)
      · rcases hsgn with rfl | ⟨-, hs⟩
        · omega
        · exact absurd hs hsigned
    dsimp only
    rw [hstart]
    exact checked_spec s hb hsmall hsgn (by omega) v e es he hes hlo hhi

section Preamble

theorem skipSpaces_stop {fuel : ℕ} {c : Char} {i j : Position} (h : isspace c = false) :
    skipSpaces fuel (c, i, j) = (c, i, j) := by
  cases fuel with
  | zero => rfl
  | succ fuel => simp [skipSpaces, h]

-- No white space stands before the sign or before the first digit.
theorem parseintPreamble_eq {signed : Bool} {base sgn : ℤ} {c c' : Char} {s : List Char} {i : Position} {j : List Char}
    (hc : isspace c = false) (hsign : readSign signed (c, some s, some (c :: s)) = (sgn, c', i, some j))
    (hc' : isspace c' = false) : parseintPreamble signed base (c :: s) = readBase base sgn (c', i, some j) := by
  have hfirst : skipSpaces ((c :: s).length + 1) (parseintIterate (some (c :: s))) = (c, some s, some (c :: s)) :=
    skipSpaces_stop hc
  rw [parseintPreamble]
  simp only [hfirst, reduceCtorEq, if_false, hsign, skipSpaces_stop hc']

-- A text that begins with a digit, or with a minus sign and a digit.
theorem parseintPreamble_digits {signed : Bool} {b : ℕ} (hb : 2 ≤ b) (hsmall : b ≤ 62) {d : ℕ} (hd : d < b)
    (rest : List Char) :
    parseintPreamble signed b (digitChar b d :: rest) = (1, (b : ℤ), some (digitChar b d :: rest)) ∧
      (signed = true → parseintPreamble signed b ('-' :: digitChar b d :: rest) =
        (-1, (b : ℤ), some (digitChar b d :: rest))) := by
  obtain ⟨-, hspace, hminus, hplus, -⟩ := digitChar_table b (by omega) d hd
  have hbase : (b : ℤ) ≠ 0 := by omega
  constructor
  · rw [parseintPreamble_eq hspace (by rw [readSign, if_neg (by simp [hminus]), if_neg (by simp [hplus])]) hspace]
    simp only [readBase, if_neg hbase]
  · rintro rfl
    rw [parseintPreamble_eq (by decide) (by rw [readSign, if_pos ⟨rfl, rfl⟩]; rfl) hspace]
    simp only [readBase, if_neg hbase]

-- Without a base, decimal digits are decimal digits.
theorem parseintPreamble_decimal {signed : Bool} {d : ℕ} {ds : List ℕ} (hds : ∀ e ∈ d :: ds, e < 10) :
    parseintPreamble signed 0 ((d :: ds).map (digitChar 10)) = (1, 10, some ((d :: ds).map (digitChar 10))) := by
  obtain ⟨-, hspace, hminus, hplus, -⟩ := digitChar_table 10 (by omega) d (hds d (by simp))
  have hletter : ∀ e < 10, digitChar 10 e ≠ 'b' ∧ digitChar 10 e ≠ 'o' ∧ digitChar 10 e ≠ 'x' := by decide
  rw [List.map_cons, parseintPreamble_eq hspace
    (by rw [readSign, if_neg (by simp [hminus]), if_neg (by simp [hplus])]) hspace]
  cases ds with
  | nil => rfl
  | cons e ds =>
      obtain ⟨hb, ho, hx⟩ := hletter e (hds e (by simp))
      simp [readBase, hb, ho, hx]

end Preamble

-- Reading digits back, behind a minus sign or not.
theorem parse_digits {T : IntType} {b : ℕ} (hb : 2 ≤ b) (hsmall : b ≤ 62) {ds : List ℕ} (hne : ds ≠ [])
    (hds : ∀ e ∈ ds, e < b) {neg : Bool} (hneg : neg = true → T.signed = true)
    (hlo : T.typemin ≤ value b ds 0 * (if neg then -1 else 1)) (hhi : value b ds 0 * (if neg then -1 else 1) ≤ T.typemax) :
    parse T ((if neg then ['-'] else []) ++ ds.map (digitChar b)) (some b) =
      .ok (value b ds 0 * (if neg then -1 else 1)) := by
  obtain ⟨d, ds, rfl⟩ := List.exists_cons_of_ne_nil hne
  obtain ⟨hplain, hminus⟩ := @parseintPreamble_digits T.signed b hb hsmall d (hds d (by simp))
    (ds.map (digitChar b))
  rw [parse, if_pos (by omega)]
  cases neg with
  | false => exact tryparseInternal_digits hb hsmall hds (.inl rfl) hplain hlo hhi
  | true => exact tryparseInternal_digits hb hsmall hds (.inr ⟨rfl, hneg rfl⟩) (hminus (hneg rfl)) hlo hhi

theorem parse_decimal {T : IntType} {ds : List ℕ} (hne : ds ≠ []) (hds : ∀ e ∈ ds, e < 10)
    (hhi : (value 10 ds 0 : ℤ) ≤ T.typemax) : parse T (ds.map (digitChar 10)) none = .ok (value 10 ds 0 : ℤ) := by
  obtain ⟨d, ds, rfl⟩ := List.exists_cons_of_ne_nil hne
  have hmin := typemin_le_zero T
  have h := tryparseInternal_digits (T := T) (by omega) (by omega) hds (.inl rfl) (parseintPreamble_decimal hds)
    (by omega) (by omega)
  rw [parse, h, mul_one]

end Joolia.Parse
