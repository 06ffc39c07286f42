import Joolia.Base.Escape
import Joolia.Base.Parse.Digits
import Joolia.Base.Strings.Theorems
import Mathlib.Data.List.TakeWhile

namespace Joolia.Tryparse

open Strings IntFuncs Fallible Packing

-- The exceptions of a reader that raises; the last two stand for a character read where there is none and for a loop that
-- does not end.
inductive Failure
  | empty
  | invalidBase (base : ℤ)
  | prematureEnd
  | invalidDigit (base : ℤ) (c : Chr)
  | extraCharacters
  | overflowError
  -- "should not happoen"
  | error
  | outside
  | endless
deriving DecidableEq, Repr

section Reader

-- The general category of a code point, from the library utf8proc.
variable (utf8procCategory : BitVec 32 → ℕ) (s : Str) (endpos : ℤ)

-- `iterate(s, i)::Tuple{Char, Int}`
def iterateTuple (i : ℤ) : Except Failure (Chr × ℤ) :=
  match iterate s i with
  | .ok (some r) => .ok r
  | _ => .error .outside

def parseintIterate (startpos : ℤ) : Except Failure (Chr × ℤ × ℤ) := do
  if ¬(0 ≤ startpos ∧ startpos ≤ endpos) then return (0, -1, -1)
  let (c, next) ← iterateTuple s startpos
  return (c, next, startpos)

-- `while isspace(c)  c, i, j = parseint_iterate(s,i,endpos)  end`
def skipSpaces : ℕ → Chr × ℤ × ℤ → Except Failure (Chr × ℤ × ℤ)
  | 0, _ => .error .endless
  | fuel + 1, (c, i, j) =>
      if isspace utf8procCategory c then do
        let p ← parseintIterate s endpos i
        skipSpaces fuel p
      else return (c, i, j)

-- `if signed`: a sign in front of the digits
def readSign (signed : Bool) : Chr × ℤ × ℤ → Except Failure (ℤ × Chr × ℤ × ℤ)
  | (c, i, j) =>
      if signed ∧ (c = lit '-' ∨ c = lit '+') then do
        let p ← parseintIterate s endpos i
        return (if c = lit '-' then -1 else 1, p)
      else return (1, c, i, j)

-- `if base == 0`: a prefix that says what the base is
def readBase (base sgn : ℤ) : Chr × ℤ × ℤ → Except Failure (ℤ × ℤ × ℤ)
  | (c, i, j) =>
      if base = 0 then
        if c = lit '0' ∧ i ≤ endpos then do
          let (c, i) ← iterateTuple s i
          let base : ℤ := if c = lit 'b' then 2 else if c = lit 'o' then 8 else if c = lit 'x' then 16 else 10
          if base ≠ 10 then
            let (_, _, j) ← parseintIterate s endpos i
            return (sgn, base, j)
          else return (sgn, base, j)
        else return (sgn, 10, j)
      else return (sgn, base, j)

-- The sign, the base and the index of the first digit.
def parseintPreamble (signed : Bool) (base startpos : ℤ) : Except Failure (ℤ × ℤ × ℤ) := do
  let p ← parseintIterate s endpos startpos
  let p ← skipSpaces utf8procCategory s endpos (s.data.length + 1) p
  if p.2.2 = -1 then return (0, 0, -1)
  let (sgn, p) ← readSign s endpos signed p
  let p ← skipSpaces utf8procCategory s endpos (s.data.length + 1) p
  if p.2.2 = -1 then return (0, 0, -1)
  readBase s endpos base sgn p

variable (T : IntType) (base sgn : ℤ) (raise : Bool)

-- `raise && throw(e); return nothing`
def fail (e : Failure) : Except Failure (Option ℤ) := if raise then .error e else .ok none

-- `_c = reinterpret(UInt32, c) >> 24;  d::T = __convert_digit(_c, base % UInt32)`
def digit (c : Chr) : ℤ := Parse.convertDigit (c >>> 24).toNat base

-- The first loop, while `n <= m`: it returns, or leaves with `n`, `c` and `i`.
def unchecked (m : ℤ) : ℕ → ℤ → Chr → ℤ → Except Failure (Option ℤ ⊕ (ℤ × Chr × ℤ))
  | 0, _, _, _ => .error .endless
  | fuel + 1, n, c, i =>
      if n ≤ m then
        let d := digit base c
        if base ≤ d then do
          let r ← fail raise (.invalidDigit base c)
          return .inl r
        else
          let n := T.wrap (T.wrap (n * base) + d)
          if endpos < i then return .inl (some (T.wrap (n * sgn)))
          else do
            let (c, i) ← iterateTuple s i
            if isspace utf8procCategory c then return .inr (n, c, i) else unchecked m fuel n c i
      else return .inr (n, c, i)

-- `while i <= endpos`
def trailing : ℕ → ℤ → ℤ → Except Failure (Option ℤ)
  | 0, _, _ => .error .endless
  | fuel + 1, n, i =>
      if i ≤ endpos then do
        let (c, i) ← iterateTuple s i
        if isspace utf8procCategory c then trailing fuel n i else fail raise .extraCharacters
      else return some n

-- The second loop, with overflow checks.
def checked : ℕ → ℤ → Chr → ℤ → Except Failure (Option ℤ)
  | 0, _, _, _ => .error .endless
  | fuel + 1, n, c, i =>
      if isspace utf8procCategory c then trailing utf8procCategory s endpos raise (s.data.length + 1) n i
      else
        let d := digit base c
        if base ≤ d then fail raise (.invalidDigit base c)
        else
          let d := if T.signed then T.wrap (d * sgn) else d
          let product := T.wrap (n * base)
          let total := T.wrap (product + d)
          if product ≠ n * base ∨ total ≠ product + d then fail raise .overflowError
          else if endpos < i then return some total
          else do
            let (c, i) ← iterateTuple s i
            checked fuel total c i

end Reader

variable (utf8procCategory : BitVec 32 → ℕ)

def tryparseInternal (T : IntType) (s : Str) (startpos endpos base : ℤ) (raise : Bool) : Except Failure (Option ℤ) := do
  let (sgn, base, i) ← parseintPreamble utf8procCategory s endpos T.signed base startpos
  if sgn = 0 ∧ base = 0 ∧ i = -1 then return ← fail raise .empty
  if ¬(2 ≤ base ∧ base ≤ 62) then return ← fail raise (.invalidBase base)
  if i = -1 then return ← fail raise .prematureEnd
  let (c, i, _) ← parseintIterate s endpos i
  if i = -1 then return ← fail raise .prematureEnd
  let m : ℤ :=
    if base = 10 then (T.typemax - 9) / 10
    else if base = 16 then (T.typemax - 15) / 16
    else (T.typemax - base + 1) / base
  match ← unchecked utf8procCategory s endpos T base sgn raise m (s.data.length + 1) 0 c i with
  | .inl r => return r
  | .inr (n, c, i) =>
      let n := if T.signed then T.wrap (n * sgn) else n
      checked utf8procCategory s endpos T base sgn raise (s.data.length + 1) n c i

-- `base === nothing ? 0 : check_valid_base(base)`
def checkValidBase (base : Option ℤ) : Except Failure ℤ :=
  match base with
  | none => .ok 0
  | some base => if 2 ≤ base ∧ base ≤ 62 then .ok base else .error (.invalidBase base)

-- `lastindex(s)`
def lastindex (s : Str) : Except Failure ℤ :=
  match thisind s (ncodeunits s - 1) with
  | .ok i => .ok i
  | .error _ => .error .outside

def tryparse (T : IntType) (s : Str) (base : Option ℤ) : Except Failure (Option ℤ) := do
  let base ← checkValidBase base
  tryparseInternal utf8procCategory T s 0 (← lastindex s) base false

def parse (T : IntType) (s : Str) (base : Option ℤ) : Except Failure ℤ := do
  let base ← checkValidBase base
  match ← tryparseInternal utf8procCategory T s 0 (← lastindex s) base true with
  | some v => return v
  | none => throw .error

section Characters

-- From the index `i` on, the characters `cs` are left.
inductive Left (s : Str) (endpos : ℤ) : ℤ → List Chr → Prop
  | done {i : ℤ} (hend : endpos < i) : Left s endpos i []
  | next {i j : ℤ} {c : Chr} {cs : List Chr} (hi : 0 ≤ i) (hle : i ≤ endpos) (hiterate : iterate s i = .ok (some (c, j)))
      (hlt : i < j) (hrest : Left s endpos j cs) : Left s endpos i (c :: cs)

variable {s : Str} {endpos : ℤ}

theorem Left.length_le {i : ℤ} {cs : List Chr} (h : Left s endpos i cs) (hi : i ≤ endpos + 1) : i + cs.length ≤ endpos + 1 := by
  induction h with
  | done hend => simpa using hi
  | @next i j c cs _ _ _ hlt hrest ih =>
      rw [List.length_cons]
      cases hrest with
      | done hend =>
          simp only [List.length_nil]
          omega
      | next hi' hle' _ _ _ =>
          have := ih (by omega)
          push_cast
          omega

theorem Left.of_yields {k : ℕ} {blocks : List Block} (h : Yields s k blocks) (hk : k = s.data.length ∨ IsStart s.data k)
    (hend : ∀ i, IsStart s.data i → (i : ℤ) ≤ endpos) (hlast : endpos < s.data.length) : Left s endpos k (blocks.map Block.char) := by
  induction h with
  | @done i hdone =>
      rcases hk with rfl | hstart
      · exact .done hlast
      · obtain ⟨e, -, hiterate⟩ := iterate_spec hstart.1
        rw [hiterate] at hdone
        cases hdone
  | @next i j c rest hnext _ ih =>
      rcases hk with rfl | hstart
      · rw [iterate_end] at hnext
        cases hnext
      · obtain ⟨e, hspans, hiterate⟩ := iterate_spec hstart.1
        have hj : e = j := by
          rw [hiterate] at hnext
          injection hnext with hnext
          injection hnext with hnext
          exact_mod_cast (Prod.mk.inj hnext).2
        subst hj
        refine .next (Int.natCast_nonneg i) (hend i hstart) hnext (by exact_mod_cast hspans.lt) (ih ?_)
        rcases Nat.eq_or_lt_of_le hspans.le with heq | hlt
        · exact .inl heq
        · exact .inr (IsBlock.isStart_stop ⟨hstart, hspans⟩ hlt)

-- The index of the last character
theorem exists_lastindex (s : Str) : ∃ endpos, lastindex s = .ok endpos ∧ endpos < s.data.length ∧ -1 ≤ endpos ∧
    ∀ i, IsStart s.data i → (i : ℤ) ≤ endpos := by
  have hN : ncodeunits s = s.data.length := rfl
  rcases Nat.eq_zero_or_pos s.data.length with hzero | hpos
  · refine ⟨-1, ?_, by omega, by omega, fun i hi => absurd hi.1 (by omega)⟩
    rw [lastindex, hN, hzero]
    rfl
  · obtain ⟨k, e, hblock, hle, hlt⟩ := exists_isBlock (s := s) (i := s.data.length - 1) (by omega)
    refine ⟨k, ?_, by omega, by omega, fun i hi => ?_⟩
    · rw [lastindex, hN, show ((s.data.length : ℤ) - 1) = ((s.data.length - 1 : ℕ) : ℤ) by omega, hblock.thisind_eq hle hlt]
    · by_contra hlate
      have hinside := (hblock.isStart_iff (i := i) (by omega) (by have := hi.1; omega)).mp hi
      omega

-- An ASCII character is its first byte.
def Plain (c : Chr) : Prop := c.toNat / 2 ^ 24 < 0x80 → c.toNat % 2 ^ 24 = 0

theorem plain_of_ok {b : Block} (h : b.OK s) : Plain b.char := by
  have hspans := h.isBlock.spans
  have hlt := hspans.lt
  intro hascii
  rw [h.char_eq, charOf, toNat_pack] at hascii ⊢
  have h0 := (byteAt (slice s.data b.start b.stop) 0).isLt
  have h1 := (byteAt (slice s.data b.start b.stop) 1).isLt
  have h2 := (byteAt (slice s.data b.start b.stop) 2).isLt
  have h3 := (byteAt (slice s.data b.start b.stop) 3).isLt
  by_cases hsingle : b.stop = b.start + 1
  · rw [hsingle, slice_one] at h0 ⊢
    have hzero : ∀ j, (byteAt [byteAt s.data b.start] (j + 1)).toNat = 0 := fun _ => rfl
    rw [hzero 0, hzero 1, hzero 2]
    omega
  · have hlead := (hspans.covers (b.start + 1) (by omega) (by omega)).need_pos
    have hbyte := ((between_two_bytes (byteAt s.data b.start)).mpr hlead)
    rw [between_iff] at hbyte
    rw [byteAt_slice (by omega), Nat.add_zero] at hascii
    have hlow : 0xc0 ≤ (byteAt s.data b.start).toNat := hbyte.1
    omega

end Characters

section Loops

variable (cat : BitVec 32 → ℕ)

-- The number whose digits are read after `v`, up to the end or to white space that nothing follows
def readDigits (b : ℕ) : ℕ → List Chr → Option ℕ
  | v, [] => some v
  | v, c :: cs =>
      if isspace cat c then if cs.all (isspace cat) then some v else none
      else if digit b c < b then readDigits b (v * b + (digit b c).toNat) cs else none

def InRange (T : IntType) (n : ℤ) : Prop := T.typemin ≤ n ∧ n ≤ T.typemax

instance (T : IntType) (n : ℤ) : Decidable (InRange T n) := inferInstanceAs (Decidable (_ ∧ _))

-- The value that a number and its sign have in a type
def valueIn (T : IntType) (sgn : ℤ) : Option ℕ → Option ℤ
  | some v => if InRange T (v * sgn) then some (v * sgn) else none
  | none => none

-- A reader returns the value, and otherwise returns `nothing` or throws; it neither leaves the text nor goes on for ever.
def Agrees (raise : Bool) (r : Except Failure (Option ℤ)) : Option ℤ → Prop
  | some v => r = .ok (some v)
  | none => if raise = true then ∃ e, r = .error e ∧ e ≠ .outside ∧ e ≠ .endless ∧ e ≠ .error else r = .ok none

theorem agrees_fail (raise : Bool) {e : Failure} (houtside : e ≠ .outside) (hendless : e ≠ .endless) (herror : e ≠ .error) :
    Agrees raise (fail raise e) none := by
  cases raise with
  | true => exact ⟨e, rfl, houtside, hendless, herror⟩
  | false => rfl

variable {cat} {s : Str} {endpos : ℤ} {T : IntType} {b : ℕ} {sgn : ℤ} {raise : Bool}

theorem le_readDigits (hb : 2 ≤ b) {v w : ℕ} {cs : List Chr} (h : readDigits cat b v cs = some w) : v ≤ w := by
  induction cs generalizing v with
  | nil =>
      cases h
      exact Nat.le_refl _
  | cons c cs ih =>
      rw [readDigits] at h
      split_ifs at h with hspace hall hdigit
      · cases h
        exact Nat.le_refl _
      · have hle := ih h
        have hmul := Nat.le_mul_of_pos_right v (by omega : 0 < b)
        omega

-- A number that is too large does not become smaller.
theorem valueIn_eq_none (hb : 2 ≤ b) (hsgn : sgn = 1 ∨ sgn = -1 ∧ T.signed = true) {v : ℕ} {cs : List Chr}
    (hout : ¬InRange T (v * sgn)) : valueIn T sgn (readDigits cat b v cs) = none := by
  have hmin := Parse.typemin_le_zero T
  have hmax := Parse.base_le_typemax T
  cases hread : readDigits cat b v cs with
  | none => rfl
  | some w =>
      have hle := le_readDigits hb hread
      rw [valueIn, if_neg]
      intro hin
      apply hout
      rw [InRange] at hin ⊢
      rcases hsgn with rfl | ⟨rfl, -⟩ <;> omega

theorem iterateTuple_eq {i j : ℤ} {c : Chr} (h : iterate s i = .ok (some (c, j))) : iterateTuple s i = .ok (c, j) := by
  rw [iterateTuple, h]

variable (cat raise) in
theorem trailing_spec (n : ℤ) {i : ℤ} {cs : List Chr} (h : Left s endpos i cs) {fuel : ℕ} (hfuel : cs.length < fuel) :
    Agrees raise (trailing cat s endpos raise fuel n i) (if cs.all (isspace cat) then some n else none) := by
  induction h generalizing fuel with
  | done hend =>
      obtain ⟨fuel, rfl⟩ := Nat.exists_eq_succ_of_ne_zero (Nat.ne_zero_of_lt hfuel)
      rw [trailing, if_neg (Int.not_le.mpr hend)]
      rfl
  | @next i j c cs hi hle hiterate hlt hrest ih =>
      obtain ⟨fuel, rfl⟩ := Nat.exists_eq_succ_of_ne_zero (Nat.ne_zero_of_lt hfuel)
      rw [trailing, if_pos hle, iterateTuple_eq hiterate, ok_bind, List.all_cons]
      dsimp only
      by_cases hspace : isspace cat c = true
      · rw [if_pos hspace, hspace, Bool.true_and]
        exact ih (Nat.lt_of_succ_lt_succ hfuel)
      · rw [if_neg hspace, if_neg (by simp [hspace])]
        exact agrees_fail raise (by simp) (by simp) (by simp)

theorem digit_nonneg (b : ℕ) (c : Chr) : 0 ≤ digit b c := by
  rw [digit, Parse.convertDigit]
  split_ifs <;> omega

-- A digit with its sign
theorem checked_digit (hsmall : b ≤ 62) (hsgn : sgn = 1 ∨ sgn = -1 ∧ T.signed = true) {d : ℕ} (hd : d < b) :
    (if T.signed = true then T.wrap (d * sgn) else (d : ℤ)) = d * sgn := by
  have hmax := Parse.base_le_typemax T
  split_ifs with hsigned
  · apply wrap_eq_self
    · have hmin : T.typemin = -(T.typemax + 1) := by
        rw [IntType.typemin, IntType.typemax, if_pos hsigned, if_pos hsigned]
        omega
      rcases hsgn with rfl | ⟨rfl, -⟩ <;> omega
    · rcases hsgn with rfl | ⟨rfl, -⟩ <;> omega
  · rcases hsgn with rfl | ⟨-, hs⟩
    · exact (mul_one _).symm
    · exact absurd hs hsigned

theorem checked_pass (hb : 2 ≤ b) (hsmall : b ≤ 62) (hsgn : sgn = 1 ∨ sgn = -1 ∧ T.signed = true) {v : ℕ} {c : Chr} {i : ℤ}
    (hspace : ¬isspace cat c = true) (hdigit : digit b c < b) (fuel : ℕ) :
    checked cat s endpos T b sgn raise (fuel + 1) (v * sgn) c i =
      if InRange T ((v * b + (digit b c).toNat : ℕ) * sgn) then
        if endpos < i then .ok (some ((v * b + (digit b c).toNat : ℕ) * sgn))
        else iterateTuple s i >>= fun r => checked cat s endpos T b sgn raise fuel ((v * b + (digit b c).toNat : ℕ) * sgn) r.1 r.2
      else fail raise .overflowError := by
  have hnonneg := digit_nonneg b c
  obtain ⟨d, hd⟩ := Int.eq_ofNat_of_zero_le hnonneg
  have hd' : d < b := by omega
  have hsigned := checked_digit (T := T) hsmall hsgn hd'
  have htotal : ((v * b + d : ℕ) : ℤ) * sgn = v * sgn * b + d * sgn := by
    push_cast
    ring
  rw [checked, if_neg hspace]
  dsimp only
  rw [if_neg (not_le.mpr hdigit), hd, hsigned, Int.toNat_natCast, htotal]
  by_cases hin : InRange T (v * sgn * b + d * sgn)
  · have hproduct : T.wrap (v * sgn * b) = v * sgn * b := by
      have hmin := Parse.typemin_le_zero T
      have hmax := Parse.base_le_typemax T
      have hcomm : (v : ℤ) * sgn * b = (v * b : ℕ) * sgn := by
        push_cast
        ring
      rw [hcomm] at hin ⊢
      obtain ⟨hlo, hhi⟩ := hin
      rcases hsgn with rfl | ⟨rfl, -⟩
      · exact wrap_eq_self T (by omega) (by omega)
      · exact wrap_eq_self T (by omega) (by omega)
    have hsum : T.wrap (v * sgn * b + d * sgn) = v * sgn * b + d * sgn := wrap_eq_self T hin.1 hin.2
    rw [if_pos hin, hproduct, hsum, if_neg (by simp)]
    rfl
  · rw [if_neg hin, if_pos]
    by_contra hexact
    rw [not_or, not_not, not_not] at hexact
    apply hin
    have hrange := wrap_range T (T.wrap (v * sgn * b) + d * sgn)
    rw [hexact.2, hexact.1] at hrange
    exact hrange

-- White space behind the number
theorem valueIn_all {v : ℕ} {cs : List Chr} (hin : InRange T (v * sgn)) :
    valueIn T sgn (if cs.all (isspace cat) then some v else none) = if cs.all (isspace cat) then some (v * sgn) else none := by
  split_ifs
  · exact if_pos hin
  · rfl

theorem checked_spec (hb : 2 ≤ b) (hsmall : b ≤ 62) (hsgn : sgn = 1 ∨ sgn = -1 ∧ T.signed = true) {v : ℕ} {c : Chr} {i : ℤ}
    {cs : List Chr} (hin : InRange T (v * sgn)) (h : Left s endpos i cs) (hlength : cs.length ≤ s.data.length) {fuel : ℕ}
    (hfuel : cs.length < fuel) :
    Agrees raise (checked cat s endpos T b sgn raise fuel (v * sgn) c i) (valueIn T sgn (readDigits cat b v (c :: cs))) := by
  induction h generalizing v c fuel with
  | @done i hend =>
      obtain ⟨fuel, rfl⟩ := Nat.exists_eq_succ_of_ne_zero (Nat.ne_zero_of_lt hfuel)
      rw [readDigits]
      by_cases hspace : isspace cat c = true
      · rw [checked, if_pos hspace, if_pos hspace]
        have htrailing := trailing_spec cat raise (v * sgn) (Left.done (s := s) hend) (Nat.succ_pos s.data.length)
        rw [valueIn_all hin]
        exact htrailing
      · rw [if_neg hspace]
        by_cases hdigit : digit b c < b
        · rw [checked_pass hb hsmall hsgn hspace hdigit, if_pos hdigit, readDigits]
          by_cases hin' : InRange T ((v * b + (digit b c).toNat : ℕ) * sgn)
          · rw [if_pos hin', if_pos hend, valueIn, if_pos hin']
            rfl
          · rw [if_neg hin', valueIn, if_neg hin']
            exact agrees_fail raise (by simp) (by simp) (by simp)
        · rw [checked, if_neg hspace, if_neg hdigit]
          dsimp only
          rw [if_pos (not_lt.mp hdigit)]
          exact agrees_fail raise (by simp) (by simp) (by simp)
  | @next i j c' cs hi hle hiterate hlt hrest ih =>
      obtain ⟨fuel, rfl⟩ := Nat.exists_eq_succ_of_ne_zero (Nat.ne_zero_of_lt hfuel)
      rw [readDigits]
      by_cases hspace : isspace cat c = true
      · rw [checked, if_pos hspace, if_pos hspace]
        have htrailing := trailing_spec cat raise (v * sgn) (Left.next hi hle hiterate hlt hrest)
          (Nat.lt_succ_of_le hlength)
        rw [valueIn_all hin]
        exact htrailing
      · rw [if_neg hspace]
        by_cases hdigit : digit b c < b
        · rw [checked_pass hb hsmall hsgn hspace hdigit, if_pos hdigit]
          by_cases hin' : InRange T ((v * b + (digit b c).toNat : ℕ) * sgn)
          · rw [if_pos hin', if_neg (Int.not_lt.mpr hle), iterateTuple_eq hiterate, ok_bind]
            exact ih hin' (Nat.le_of_succ_le hlength) (Nat.lt_of_succ_lt_succ hfuel)
          · rw [if_neg hin', valueIn_eq_none hb hsgn hin']
            exact agrees_fail raise (by simp) (by simp) (by simp)
        · rw [checked, if_neg hspace, if_neg hdigit]
          dsimp only
          rw [if_pos (not_lt.mp hdigit)]
          exact agrees_fail raise (by simp) (by simp) (by simp)

-- What follows the first loop
def afterUnchecked (cat : BitVec 32 → ℕ) (s : Str) (endpos : ℤ) (T : IntType) (b : ℕ) (sgn : ℤ) (raise : Bool) :
    Option ℤ ⊕ (ℤ × Chr × ℤ) → Except Failure (Option ℤ)
  | .inl r => .ok r
  | .inr (n, c, i) => checked cat s endpos T b sgn raise (s.data.length + 1) (if T.signed then T.wrap (n * sgn) else n) c i

theorem signed_start (hsgn : sgn = 1 ∨ sgn = -1 ∧ T.signed = true) {v : ℕ} (hv : v ≤ T.typemax) :
    (if T.signed = true then T.wrap (v * sgn) else (v : ℤ)) = v * sgn ∧ InRange T (v * sgn) := by
  have hmin : T.signed = true → T.typemin = -(T.typemax + 1) := by
    intro hsigned
    rw [IntType.typemin, IntType.typemax, if_pos hsigned, if_pos hsigned]
    omega
  have hmin' := Parse.typemin_le_zero T
  have hin : InRange T (v * sgn) := by
    rw [InRange]
    rcases hsgn with rfl | ⟨rfl, hsigned⟩
    · omega
    · have := hmin hsigned
      omega
  refine ⟨?_, hin⟩
  split_ifs with hsigned
  · exact wrap_eq_self T hin.1 hin.2
  · rcases hsgn with rfl | ⟨-, hs⟩
    · exact (mul_one _).symm
    · exact absurd hs hsigned

variable (cat s endpos raise) in
theorem unchecked_pass (hsgn : sgn = 1 ∨ sgn = -1 ∧ T.signed = true) {m : ℤ} (hm : m * b + (b - 1) ≤ T.typemax) {v : ℕ}
    (hv : v ≤ m) {c : Chr} {i : ℤ} (hdigit : digit b c < b) (fuel : ℕ) :
    ((v * b + (digit b c).toNat : ℕ) : ℤ) ≤ T.typemax ∧
    unchecked cat s endpos T b sgn raise m (fuel + 1) v c i =
      if endpos < i then .ok (.inl (some ((v * b + (digit b c).toNat : ℕ) * sgn)))
      else iterateTuple s i >>= fun r =>
        if isspace cat r.1 then .ok (.inr (((v * b + (digit b c).toNat : ℕ) : ℤ), r.1, r.2))
        else unchecked cat s endpos T b sgn raise m fuel (v * b + (digit b c).toNat : ℕ) r.1 r.2 := by
  obtain ⟨d, hd⟩ := Int.eq_ofNat_of_zero_le (digit_nonneg b c)
  obtain ⟨hstep, hmax⟩ := Parse.wrap_step hm hv (show d < b by omega)
  rw [unchecked, if_pos hv]
  dsimp only
  rw [if_neg (not_le.mpr hdigit), hd, hstep, Int.toNat_natCast]
  refine ⟨hmax, ?_⟩
  have hin := (signed_start (T := T) hsgn hmax).2
  rw [wrap_eq_self T hin.1 hin.2]
  rfl

-- The first loop reads digits as long as nothing can overflow, and leaves the others to the second.
theorem unchecked_spec (hb : 2 ≤ b) (hsmall : b ≤ 62) (hsgn : sgn = 1 ∨ sgn = -1 ∧ T.signed = true) {m : ℤ}
    (hm : m * b + (b - 1) ≤ T.typemax) {v : ℕ} (hv : v ≤ T.typemax) {c : Chr} (hspace : ¬isspace cat c = true) {i : ℤ}
    {cs : List Chr} (h : Left s endpos i cs) (hlength : cs.length ≤ s.data.length) {fuel : ℕ} (hfuel : cs.length < fuel) :
    Agrees raise (unchecked cat s endpos T b sgn raise m fuel v c i >>= afterUnchecked cat s endpos T b sgn raise)
      (valueIn T sgn (readDigits cat b v (c :: cs))) := by
  have hleave : ∀ {v : ℕ} {c : Chr} {i : ℤ} {cs : List Chr}, v ≤ T.typemax → Left s endpos i cs → cs.length ≤ s.data.length →
      Agrees raise (afterUnchecked cat s endpos T b sgn raise (.inr ((v : ℤ), c, i)))
        (valueIn T sgn (readDigits cat b v (c :: cs))) := by
    intro v c i cs hv h hlength
    obtain ⟨hstart, hin⟩ := signed_start hsgn hv
    rw [afterUnchecked, hstart]
    exact checked_spec hb hsmall hsgn hin h hlength (Nat.lt_succ_of_le hlength)
  have hinvalid : ∀ {v : ℕ} {c : Chr} {i : ℤ} {cs : List Chr} (fuel : ℕ), v ≤ m → ¬isspace cat c = true → ¬digit b c < b →
      Agrees raise (unchecked cat s endpos T b sgn raise m (fuel + 1) v c i >>= afterUnchecked cat s endpos T b sgn raise)
        (valueIn T sgn (readDigits cat b v (c :: cs))) := by
    intro v c i cs fuel hv hspace hdigit
    rw [unchecked, if_pos hv]
    dsimp only
    rw [if_pos (not_lt.mp hdigit), readDigits, if_neg hspace, if_neg hdigit]
    cases raise with
    | true => exact ⟨.invalidDigit b c, rfl, by simp, by simp, by simp⟩
    | false => rfl
  induction h generalizing v c fuel with
  | @done i hend =>
      obtain ⟨fuel, rfl⟩ := Nat.exists_eq_succ_of_ne_zero (Nat.ne_zero_of_lt hfuel)
      by_cases hle : v ≤ m
      · by_cases hdigit : digit b c < b
        · obtain ⟨hmax, hpass⟩ := unchecked_pass cat s endpos raise (i := i) hsgn hm hle hdigit fuel
          rw [hpass, if_pos hend, readDigits, if_neg hspace, if_pos hdigit, readDigits, valueIn, if_pos (signed_start hsgn hmax).2]
          rfl
        · exact hinvalid fuel hle hspace hdigit
      · rw [unchecked, if_neg hle]
        exact hleave hv (.done hend) hlength
  | @next i j c' cs hi hle' hiterate hlt hrest ih =>
      obtain ⟨fuel, rfl⟩ := Nat.exists_eq_succ_of_ne_zero (Nat.ne_zero_of_lt hfuel)
      by_cases hle : v ≤ m
      · by_cases hdigit : digit b c < b
        · obtain ⟨hmax, hpass⟩ := unchecked_pass cat s endpos raise (i := i) hsgn hm hle hdigit fuel
          rw [hpass, if_neg (Int.not_lt.mpr hle'), iterateTuple_eq hiterate, ok_bind, readDigits, if_neg hspace, if_pos hdigit]
          by_cases hspace' : isspace cat c' = true
          · rw [if_pos hspace']
            exact hleave hmax hrest (Nat.le_of_succ_le hlength)
          · rw [if_neg hspace']
            exact ih hmax hspace' (Nat.le_of_succ_le hlength) (Nat.lt_of_succ_lt_succ hfuel)
        · exact hinvalid fuel hle hspace hdigit
      · rw [unchecked, if_neg hle]
        exact hleave hv (.next hi hle' hiterate hlt hrest) hlength

end Loops

section Preamble

-- What `parseint_iterate` has read, when the characters `cs` were left
inductive Held (s : Str) (endpos : ℤ) : Chr × ℤ × ℤ → List Chr → Prop
  | none : Held s endpos (0, -1, -1) []
  | some {c : Chr} {i j : ℤ} {cs : List Chr} (hj : 0 ≤ j) (hle : j ≤ endpos) (hiterate : iterate s j = .ok (some (c, i)))
      (hlt : j < i) (hrest : Left s endpos i cs) : Held s endpos (c, i, j) (c :: cs)

def stripSign (signed : Bool) : List Chr → ℤ × List Chr
  | [] => (1, [])
  | c :: cs => if signed ∧ (c = lit '-' ∨ c = lit '+') then (if c = lit '-' then -1 else 1, cs) else (1, c :: cs)

def stripBase (base : ℕ) : List Chr → ℕ × List Chr
  | c :: d :: cs =>
      if base = 0 then
        if c = lit '0' then
          if d = lit 'b' then (2, cs) else if d = lit 'o' then (8, cs) else if d = lit 'x' then (16, cs) else (10, c :: d :: cs)
        else (10, c :: d :: cs)
      else (base, c :: d :: cs)
  | cs => (if base = 0 then 10 else base, cs)

variable {cat : BitVec 32 → ℕ} {s : Str} {endpos : ℤ}

theorem parseintIterate_spec {i : ℤ} {cs : List Chr} (h : Left s endpos i cs) :
    ∃ p, parseintIterate s endpos i = .ok p ∧ Held s endpos p cs := by
  cases h with
  | done hend =>
      refine ⟨(0, -1, -1), ?_, .none⟩
      rw [parseintIterate, if_pos (by omega)]
      rfl
  | @next _ j c cs hi hle hiterate hlt hrest =>
      refine ⟨(c, j, i), ?_, .some hi hle hiterate hlt hrest⟩
      rw [parseintIterate, if_neg (by omega), iterateTuple_eq hiterate]
      rfl

theorem isspace_zero (cat : BitVec 32 → ℕ) : isspace cat 0 = false := rfl

variable (cat) in
theorem skipSpaces_spec {p : Chr × ℤ × ℤ} {cs : List Chr} (h : Held s endpos p cs) {fuel : ℕ} (hfuel : cs.length < fuel) :
    ∃ p', skipSpaces cat s endpos fuel p = .ok p' ∧ Held s endpos p' (cs.dropWhile (isspace cat)) := by
  induction cs generalizing p fuel with
  | nil =>
      obtain ⟨fuel, rfl⟩ := Nat.exists_eq_succ_of_ne_zero (Nat.ne_zero_of_lt hfuel)
      cases h
      exact ⟨(0, -1, -1), by rw [skipSpaces, isspace_zero]; rfl, .none⟩
  | cons c cs ih =>
      obtain ⟨fuel, rfl⟩ := Nat.exists_eq_succ_of_ne_zero (Nat.ne_zero_of_lt hfuel)
      cases h with
      | @some _ i j _ hj hle hiterate hlt hrest =>
          rw [skipSpaces, List.dropWhile_cons]
          by_cases hspace : isspace cat c = true
          · obtain ⟨p', hp', hheld⟩ := parseintIterate_spec hrest
            rw [if_pos hspace, if_pos hspace, hp', ok_bind]
            exact ih hheld (Nat.lt_of_succ_lt_succ hfuel)
          · rw [if_neg hspace, if_neg hspace]
            exact ⟨(c, i, j), rfl, .some hj hle hiterate hlt hrest⟩

theorem readSign_spec {p : Chr × ℤ × ℤ} {cs : List Chr} (h : Held s endpos p cs) (signed : Bool) :
    ∃ p', readSign s endpos signed p = .ok ((stripSign signed cs).1, p') ∧ Held s endpos p' (stripSign signed cs).2 := by
  cases h with
  | none =>
      refine ⟨(0, -1, -1), ?_, .none⟩
      rw [readSign, if_neg (by rintro ⟨-, hc | hc⟩ <;> cases hc)]
      rfl
  | @some c i j cs hj hle hiterate hlt hrest =>
      rw [readSign, stripSign]
      split_ifs with hsign hminus
      · obtain ⟨p', hp', hheld⟩ := parseintIterate_spec hrest
        exact ⟨p', by rw [hp']; rfl, hheld⟩
      · obtain ⟨p', hp', hheld⟩ := parseintIterate_spec hrest
        exact ⟨p', by rw [hp']; rfl, hheld⟩
      · exact ⟨(c, i, j), rfl, .some hj hle hiterate hlt hrest⟩

-- The index of the first digit, or -1
def Starts (s : Str) (endpos j : ℤ) (cs : List Chr) : Prop := (cs = [] ∧ j = -1) ∨ (cs ≠ [] ∧ j ≠ -1 ∧ Left s endpos j cs)

theorem Held.starts {p : Chr × ℤ × ℤ} {cs : List Chr} (h : Held s endpos p cs) : Starts s endpos p.2.2 cs := by
  cases h with
  | none => exact .inl ⟨rfl, rfl⟩
  | some hj hle hiterate hlt hrest =>
      exact .inr ⟨List.cons_ne_nil _ _, by dsimp only; omega, .next hj hle hiterate hlt hrest⟩

theorem readBase_spec {p : Chr × ℤ × ℤ} {cs : List Chr} (h : Held s endpos p cs) (base : ℕ) (sgn : ℤ) :
    ∃ j, readBase s endpos base sgn p = .ok (sgn, ((stripBase base cs).1 : ℤ), j) ∧ Starts s endpos j (stripBase base cs).2 := by
  have hstarts := h.starts
  by_cases hbase : base = 0
  · subst hbase
    cases h with
    | none => exact ⟨-1, rfl, .inl ⟨rfl, rfl⟩⟩
    | @some c i j cs hj hle hiterate hlt hrest =>
        rw [readBase, if_pos Nat.cast_zero]
        cases hrest with
        | done hend =>
            rw [if_neg (fun hmark => absurd hmark.2 (Int.not_le.mpr hend))]
            exact ⟨j, rfl, hstarts⟩
        | @next _ i' d cs hi' hle' hiterate' hlt' hrest' =>
            by_cases hzero : c = lit '0'
            · obtain ⟨p', hp', hheld⟩ := parseintIterate_spec hrest'
              rw [if_pos ⟨hzero, hle'⟩, iterateTuple_eq hiterate', ok_bind, stripBase, if_pos rfl, if_pos hzero]
              dsimp only
              by_cases hb : d = lit 'b'
              · rw [if_pos hb, if_pos hb, if_pos (by decide), hp']
                exact ⟨p'.2.2, rfl, hheld.starts⟩
              rw [if_neg hb, if_neg hb]
              by_cases ho : d = lit 'o'
              · rw [if_pos ho, if_pos ho, if_pos (by decide), hp']
                exact ⟨p'.2.2, rfl, hheld.starts⟩
              rw [if_neg ho, if_neg ho]
              by_cases hx : d = lit 'x'
              · rw [if_pos hx, if_pos hx, if_pos (by decide), hp']
                exact ⟨p'.2.2, rfl, hheld.starts⟩
              rw [if_neg hx, if_neg hx, if_neg (by decide)]
              exact ⟨j, rfl, hstarts⟩
            · rw [if_neg (fun hmark => hzero hmark.1), stripBase, if_pos rfl, if_neg hzero]
              exact ⟨j, rfl, hstarts⟩
  · have hstrip : stripBase base cs = (base, cs) := by
      rcases cs with _ | ⟨c, _ | ⟨d, cs⟩⟩
      · rw [stripBase, if_neg hbase]
        simp
      · rw [stripBase, if_neg hbase]
        simp
      · rw [stripBase, if_neg hbase]
    obtain ⟨c, i, j⟩ := p
    rw [hstrip, readBase, if_neg (by exact_mod_cast hbase)]
    exact ⟨j, rfl, hstarts⟩

-- The value of the numeral that a text is
def numeralValue (cat : BitVec 32 → ℕ) (T : IntType) (base : ℕ) (cs : List Chr) : Option ℤ :=
  let (sgn, cs) := stripSign T.signed (cs.dropWhile (isspace cat))
  let (b, cs) := stripBase base (cs.dropWhile (isspace cat))
  match cs with
  | [] => none
  | c :: cs => if isspace cat c then none else valueIn T sgn (readDigits cat b 0 (c :: cs))

variable (cat) in
theorem length_dropWhile_le (cs : List Chr) : (cs.dropWhile (isspace cat)).length ≤ cs.length := by
  have hsplit := congrArg List.length (List.takeWhile_append_dropWhile (p := isspace cat) (l := cs))
  rw [List.length_append] at hsplit
  omega

theorem length_stripSign (signed : Bool) (cs : List Chr) : (stripSign signed cs).2.length ≤ cs.length := by
  cases cs with
  | nil => exact Nat.le_refl _
  | cons c cs =>
      rw [stripSign]
      split_ifs
      · exact Nat.le_succ _
      · exact Nat.le_succ _
      · exact Nat.le_refl _

theorem length_stripBase (base : ℕ) (cs : List Chr) : (stripBase base cs).2.length ≤ cs.length := by
  rcases cs with _ | ⟨c, _ | ⟨d, cs⟩⟩
  · exact Nat.le_refl _
  · exact Nat.le_refl _
  · rw [stripBase]
    split_ifs <;> simp <;> omega

theorem stripSign_sign (signed : Bool) (cs : List Chr) :
    (stripSign signed cs).1 = 1 ∨ (stripSign signed cs).1 = -1 ∧ signed = true := by
  cases cs with
  | nil => exact .inl rfl
  | cons c cs =>
      rw [stripSign]
      split_ifs with hsign hminus
      · exact .inr ⟨rfl, hsign.1⟩
      · exact .inl rfl
      · exact .inl rfl

theorem stripBase_base {base : ℕ} (hbase : base = 0 ∨ 2 ≤ base ∧ base ≤ 62) (cs : List Chr) :
    2 ≤ (stripBase base cs).1 ∧ (stripBase base cs).1 ≤ 62 := by
  have hplain : 2 ≤ (if base = 0 then 10 else base) ∧ (if base = 0 then 10 else base) ≤ 62 := by
    split_ifs <;> omega
  rcases cs with _ | ⟨c, _ | ⟨d, cs⟩⟩
  · exact hplain
  · exact hplain
  · rw [stripBase]
    split_ifs <;> dsimp only <;> omega

theorem Held.eq_nil {p : Chr × ℤ × ℤ} {cs : List Chr} (h : Held s endpos p cs) (hend : p.2.2 = -1) : cs = [] := by
  rcases h.starts with ⟨hnil, -⟩ | ⟨-, hne, -⟩
  · exact hnil
  · exact absurd hend hne

-- White space is not a digit.
theorem digit_isspace {b : ℕ} {c : Chr} (h : isspace cat c = true) : digit b c = b := by
  have hfirst : (c >>> 24).toNat = 0x20 ∨ (c >>> 24).toNat < 0x0e ∨ 0xc2 ≤ (c >>> 24).toNat := by
    rw [BitVec.toNat_ushiftRight, Nat.shiftRight_eq_div_pow]
    simp only [isspace, Bool.or_eq_true, Bool.and_eq_true, beq_iff_eq, decide_eq_true_eq, BitVec.le_def] at h
    rcases h with ((rfl | ⟨-, h⟩) | rfl) | ⟨h, -⟩
    · exact .inl rfl
    · have h' : c.toNat ≤ 0x0d000000 := h
      omega
    · exact .inr (.inr (by decide))
    · have h' : 0xc2a00000 ≤ c.toNat := h
      omega
  rw [digit, Parse.convertDigit]
  split_ifs <;> omega

-- What is read from the first digit on
theorem digits_spec {T : IntType} {b : ℕ} (hb : 2 ≤ b) (hsmall : b ≤ 62) {sgn : ℤ} (hsgn : sgn = 1 ∨ sgn = -1 ∧ T.signed = true)
    {c : Chr} {i : ℤ} {cs : List Chr} (h : Left s endpos i cs) (hlength : cs.length ≤ s.data.length) {raise : Bool} :
    Agrees raise
      (unchecked cat s endpos T b sgn raise
        (if (b : ℤ) = 10 then (T.typemax - 9) / 10 else if (b : ℤ) = 16 then (T.typemax - 15) / 16 else (T.typemax - b + 1) / b)
        (s.data.length + 1) 0 c i >>= afterUnchecked cat s endpos T b sgn raise)
      (if isspace cat c then none else valueIn T sgn (readDigits cat b 0 (c :: cs))) := by
  have hlarge := Parse.base_le_typemax T
  obtain ⟨m, hm, hlimit, hpos⟩ : ∃ m : ℤ, (if (b : ℤ) = 10 then (T.typemax - 9) / 10
      else if (b : ℤ) = 16 then (T.typemax - 15) / 16 else (T.typemax - b + 1) / b) = m ∧ m * b + (b - 1) ≤ T.typemax ∧ 0 ≤ m := by
    refine ⟨_, rfl, ?_⟩
    split_ifs with h10 h16
    · rw [h10]
      omega
    · rw [h16]
      omega
    · have := Int.ediv_mul_le (T.typemax - b + 1) (by omega : (b : ℤ) ≠ 0)
      exact ⟨by omega, Int.ediv_nonneg (by omega) (by omega)⟩
  rw [hm]
  by_cases hspace : isspace cat c = true
  · rw [if_pos hspace, unchecked, if_pos hpos]
    dsimp only
    rw [if_pos (Int.le_of_eq (digit_isspace hspace).symm)]
    cases raise with
    | true => exact ⟨.invalidDigit b c, rfl, by simp, by simp, by simp⟩
    | false => rfl
  · rw [if_neg hspace]
    have hzero : ((0 : ℕ) : ℤ) ≤ T.typemax := by
      rw [Nat.cast_zero]
      omega
    exact unchecked_spec hb hsmall hsgn hlimit hzero hspace h hlength (Nat.lt_succ_of_le hlength)

variable (cat) in
theorem parseintPreamble_spec (signed : Bool) {cs : List Chr} (h : Left s endpos 0 cs) (hlength : cs.length ≤ s.data.length) (base : ℕ) :
    let sign := stripSign signed (cs.dropWhile (isspace cat))
    let number := stripBase base (sign.2.dropWhile (isspace cat))
    (number.2 = [] ∧ parseintPreamble cat s endpos signed base 0 = .ok (0, 0, -1)) ∨
      ∃ j, parseintPreamble cat s endpos signed base 0 = .ok (sign.1, (number.1 : ℤ), j) ∧ Starts s endpos j number.2 := by
  obtain ⟨p₁, hp₁, hheld₁⟩ := parseintIterate_spec h
  obtain ⟨p₂, hp₂, hheld₂⟩ := skipSpaces_spec cat hheld₁ (Nat.lt_succ_of_le hlength)
  have hlength₂ := Nat.le_trans (length_dropWhile_le cat cs) hlength
  obtain ⟨p₃, hp₃, hheld₃⟩ := readSign_spec hheld₂ signed
  have hlength₃ := Nat.le_trans (length_stripSign signed (cs.dropWhile (isspace cat))) hlength₂
  obtain ⟨p₄, hp₄, hheld₄⟩ := skipSpaces_spec cat hheld₃ (Nat.lt_succ_of_le hlength₃)
  obtain ⟨j, hj, hstarts⟩ := readBase_spec hheld₄ base (stripSign signed (cs.dropWhile (isspace cat))).1
  have hnil : (stripBase base []).2 = [] := List.eq_nil_of_length_eq_zero (Nat.le_zero.mp (length_stripBase base []))
  dsimp only
  rw [parseintPreamble, hp₁, ok_bind, hp₂, ok_bind]
  by_cases hend₂ : p₂.2.2 = -1
  · left
    rw [if_pos hend₂, hheld₂.eq_nil hend₂]
    exact ⟨hnil, rfl⟩
  rw [if_neg hend₂]
  dsimp only
  rw [hp₃, ok_bind]
  dsimp only
  rw [hp₄, ok_bind]
  by_cases hend₄ : p₄.2.2 = -1
  · left
    rw [if_pos hend₄, hheld₄.eq_nil hend₄]
    exact ⟨hnil, rfl⟩
  rw [if_neg hend₄]
  exact .inr ⟨j, hj, hstarts⟩

variable (cat) in
theorem tryparseInternal_spec (T : IntType) {cs : List Chr} (h : Left s endpos 0 cs) (hlength : cs.length ≤ s.data.length)
    {base : ℕ} (hbase : base = 0 ∨ 2 ≤ base ∧ base ≤ 62) (raise : Bool) :
    Agrees raise (tryparseInternal cat T s 0 endpos base raise) (numeralValue cat T base cs) := by
  have hpreamble := parseintPreamble_spec cat T.signed h hlength base
  have hsgn := stripSign_sign T.signed (cs.dropWhile (isspace cat))
  have hb := stripBase_base hbase ((stripSign T.signed (cs.dropWhile (isspace cat))).2.dropWhile (isspace cat))
  have hlength₅ : (stripBase base ((stripSign T.signed (cs.dropWhile (isspace cat))).2.dropWhile (isspace cat))).2.length ≤
      s.data.length := by
    have hlength₁ := length_stripBase base ((stripSign T.signed (cs.dropWhile (isspace cat))).2.dropWhile (isspace cat))
    have hlength₂ := length_dropWhile_le cat (stripSign T.signed (cs.dropWhile (isspace cat))).2
    have hlength₃ := length_stripSign T.signed (cs.dropWhile (isspace cat))
    have hlength₄ := length_dropWhile_le cat cs
    omega
  rw [numeralValue]
  dsimp only at hpreamble ⊢
  generalize (stripSign T.signed (cs.dropWhile (isspace cat))).1 = sgn at hsgn hpreamble ⊢
  generalize stripBase base ((stripSign T.signed (cs.dropWhile (isspace cat))).2.dropWhile (isspace cat)) = r at *
  obtain ⟨b, cs₅⟩ := r
  rw [tryparseInternal]
  rcases hpreamble with ⟨hnil, hpreamble⟩ | ⟨j, hpreamble, hstarts⟩
  · have hnil : cs₅ = [] := hnil
    rw [hpreamble, ok_bind, hnil]
    exact agrees_fail raise (by simp) (by simp) (by simp)
  obtain ⟨h2, h62⟩ : 2 ≤ b ∧ b ≤ 62 := hb
  rw [hpreamble, ok_bind]
  dsimp only
  rw [if_neg (by rcases hsgn with rfl | ⟨rfl, -⟩ <;> simp), if_neg (by omega)]
  rcases hstarts with ⟨hnil, hend⟩ | ⟨hne, hj', hleft⟩
  · have hnil' : cs₅ = [] := hnil
    rw [if_pos hend, hnil']
    exact agrees_fail raise (by simp) (by simp) (by simp)
  · rw [if_neg hj']
    cases cs₅ with
    | nil => exact absurd rfl hne
    | cons c cs₅ =>
        cases hleft with
        | @next _ i _ _ hpos hle hiterate hlt hrest =>
            have hparse : parseintIterate s endpos j = .ok (c, i, j) := by
              rw [parseintIterate, if_neg (by omega), iterateTuple_eq hiterate]
              rfl
            rw [hparse, ok_bind]
            dsimp only
            rw [if_neg (by omega)]
            exact digits_spec h2 h62 hsgn hrest (Nat.le_of_succ_le hlength₅)

end Preamble

section Grammar

def ascii (n : ℕ) : Chr := BitVec.ofNat 32 n <<< 24

-- The letters of both cases are the same digits up to base 36.
def DigitOf (b : ℕ) (c : Chr) (d : ℕ) : Prop :=
  (∃ k < 10, c = ascii (0x30 + k) ∧ d = k) ∨ (∃ k < 26, c = ascii (0x41 + k) ∧ d = 10 + k) ∨
    ∃ k < 26, c = ascii (0x61 + k) ∧ d = (if b ≤ 36 then 10 else 36) + k

inductive Sign (signed : Bool) : List Chr → ℤ → Prop
  | none : Sign signed [] 1
  | plus (h : signed = true) : Sign signed [lit '+'] 1
  | minus (h : signed = true) : Sign signed [lit '-'] (-1)

-- The base 0 stands for a base that the text says.
inductive Prefix : ℕ → List Chr → ℕ → Prop
  | given {base : ℕ} (h : base ≠ 0) : Prefix base [] base
  | decimal : Prefix 0 [] 10
  | binary : Prefix 0 [lit '0', lit 'b'] 2
  | octal : Prefix 0 [lit '0', lit 'o'] 8
  | hexadecimal : Prefix 0 [lit '0', lit 'x'] 16

variable (cat : BitVec 32 → ℕ)

-- A text that is a numeral with the value `v`
def Numeral (signed : Bool) (base : ℕ) (cs : List Chr) (v : ℤ) : Prop :=
  ∃ before sign between pre digits after sgn b ds, cs = before ++ (sign ++ (between ++ (pre ++ (digits ++ after)))) ∧
    (∀ c ∈ before, isspace cat c = true) ∧ Sign signed sign sgn ∧ (∀ c ∈ between, isspace cat c = true) ∧ Prefix base pre b ∧
    digits ≠ [] ∧ List.Forall₂ (DigitOf b) digits ds ∧ (∀ d ∈ ds, d < b) ∧ (∀ c ∈ after, isspace cat c = true) ∧
    v = Parse.value b ds 0 * sgn

variable {cat} {b d : ℕ} {c : Chr}

theorem toNat_ascii {n : ℕ} (h : n < 256) : (ascii n).toNat = n * 2 ^ 24 := by
  rw [ascii, BitVec.toNat_shiftLeft, BitVec.toNat_ofNat, Nat.shiftLeft_eq]
  omega

theorem toNat_first (c : Chr) : (c >>> 24).toNat = c.toNat / 2 ^ 24 := by
  rw [BitVec.toNat_ushiftRight, Nat.shiftRight_eq_div_pow]

theorem eq_ascii (hplain : Plain c) (h : (c >>> 24).toNat < 0x80) : c = ascii (c >>> 24).toNat := by
  apply BitVec.eq_of_toNat_eq
  rw [toNat_ascii (by omega)]
  rw [toNat_first] at h ⊢
  have := hplain h
  omega

theorem digit_ascii {n : ℕ} (h : n < 256) : digit b (ascii n) = Parse.convertDigit n b := by
  rw [digit, toNat_first, toNat_ascii h, Nat.mul_div_cancel _ (by omega)]

theorem digit_eq_iff (hplain : Plain c) (hd : d < b) : digit b c = d ↔ DigitOf b c d := by
  constructor
  · intro h
    rw [digit, Parse.convertDigit] at h
    have hascii := eq_ascii hplain
    generalize (c >>> 24).toNat = n at h hascii
    split_ifs at h with hdigit hupper hlower hbase
    · exact .inl ⟨n - 0x30, by omega, by rw [hascii (by omega)]; congr 1; omega, by omega⟩
    · exact .inr (.inl ⟨n - 0x41, by omega, by rw [hascii (by omega)]; congr 1; omega, by omega⟩)
    · refine .inr (.inr ⟨n - 0x61, by omega, by rw [hascii (by omega)]; congr 1; omega, ?_⟩)
      rw [if_pos (by omega)]
      omega
    · refine .inr (.inr ⟨n - 0x61, by omega, by rw [hascii (by omega)]; congr 1; omega, ?_⟩)
      rw [if_neg (by omega)]
      omega
    · omega
  · rintro (⟨k, hk, rfl, rfl⟩ | ⟨k, hk, rfl, rfl⟩ | ⟨k, hk, rfl, hd'⟩)
    · rw [digit_ascii (by omega), Parse.convertDigit, if_pos (by omega)]
      omega
    · rw [digit_ascii (by omega), Parse.convertDigit, if_neg (by omega), if_pos (by omega)]
      omega
    · rw [digit_ascii (by omega), Parse.convertDigit, if_neg (by omega), if_neg (by omega), if_pos (by omega), hd']
      by_cases h36 : b ≤ 36
      · rw [if_pos h36, if_pos (by omega)]
        omega
      · rw [if_neg h36, if_neg (by omega)]
        omega

theorem readDigits_eq_some_iff {v w : ℕ} {cs : List Chr} (hplain : ∀ c ∈ cs, Plain c) : readDigits cat b v cs = some w ↔
    ∃ digits after ds, cs = digits ++ after ∧ List.Forall₂ (DigitOf b) digits ds ∧ (∀ d ∈ ds, d < b) ∧
      (∀ c ∈ after, isspace cat c = true) ∧ w = Parse.value b ds v := by
  induction cs generalizing v with
  | nil =>
      rw [readDigits]
      constructor
      · rintro ⟨⟩
        exact ⟨[], [], [], rfl, .nil, fun _ hd => absurd hd List.not_mem_nil, fun _ hc => absurd hc List.not_mem_nil, rfl⟩
      · rintro ⟨digits, after, ds, hcs, hdigits, -, -, rfl⟩
        obtain ⟨rfl, -⟩ := List.append_eq_nil_iff.mp hcs.symm
        cases hdigits
        rfl
  | cons c cs ih =>
      have hplain' := fun c hc => hplain c (List.mem_cons_of_mem _ hc)
      -- the first character is either behind the number or its first digit
      have hsplit : ∀ {digits after : List Chr} {ds : List ℕ}, c :: cs = digits ++ after → List.Forall₂ (DigitOf b) digits ds →
          (∀ d ∈ ds, d < b) → (digits = [] ∧ ds = [] ∧ after = c :: cs) ∨
            ∃ digits' d ds', digits = c :: digits' ∧ ds = d :: ds' ∧ cs = digits' ++ after ∧ digit b c = d ∧ d < b ∧
              List.Forall₂ (DigitOf b) digits' ds' ∧ ∀ d ∈ ds', d < b := by
        intro digits after ds hcs hdigits hds
        cases hdigits with
        | nil => exact .inl ⟨rfl, rfl, hcs.symm⟩
        | @cons c' d digits' ds' hfirst hrest =>
            obtain ⟨rfl, hcs'⟩ := List.cons.inj hcs
            have hd := hds d List.mem_cons_self
            exact .inr ⟨digits', d, ds', rfl, rfl, hcs', (digit_eq_iff (hplain c List.mem_cons_self) hd).mpr hfirst, hd, hrest,
              fun d hd => hds d (List.mem_cons_of_mem _ hd)⟩
      rw [readDigits]
      by_cases hspace : isspace cat c = true
      · rw [if_pos hspace]
        constructor
        · intro h
          split_ifs at h with hall
          cases h
          refine ⟨[], c :: cs, [], rfl, .nil, fun _ hd => absurd hd List.not_mem_nil, fun c' hc' => ?_, rfl⟩
          rcases List.mem_cons.mp hc' with rfl | hc'
          · exact hspace
          · exact List.all_eq_true.mp hall c' hc'
        · rintro ⟨digits, after, ds, hcs, hdigits, hds, hafter, rfl⟩
          rcases hsplit hcs hdigits hds with ⟨rfl, rfl, rfl⟩ | ⟨_, d, _, -, -, -, hd, hlt, -, -⟩
          · rw [if_pos (List.all_eq_true.mpr fun c' hc' => hafter c' (List.mem_cons_of_mem _ hc'))]
            rfl
          · rw [digit_isspace hspace] at hd
            omega
      · rw [if_neg hspace]
        by_cases hdigit : digit b c < b
        · obtain ⟨d, hd⟩ := Int.eq_ofNat_of_zero_le (digit_nonneg b c)
          have hlt : d < b := by omega
          rw [if_pos hdigit, ih hplain', hd, Int.toNat_natCast]
          constructor
          · rintro ⟨digits, after, ds, rfl, hdigits, hds, hafter, rfl⟩
            refine ⟨c :: digits, after, d :: ds, rfl, .cons ?_ hdigits, ?_, hafter, rfl⟩
            · exact (digit_eq_iff (hplain c List.mem_cons_self) hlt).mp hd
            · intro e he
              rcases List.mem_cons.mp he with rfl | he
              · exact hlt
              · exact hds e he
          · rintro ⟨digits, after, ds, hcs, hdigits, hds, hafter, rfl⟩
            rcases hsplit hcs hdigits hds with ⟨rfl, rfl, rfl⟩ | ⟨digits', d', ds', rfl, rfl, rfl, hd', hlt', hdigits', hds'⟩
            · exact absurd (hafter c List.mem_cons_self) hspace
            · have hsame : d = d' := by omega
              subst hsame
              exact ⟨digits', after, ds', rfl, hdigits', hds', hafter, rfl⟩
        · rw [if_neg hdigit]
          constructor
          · rintro ⟨⟩
          · rintro ⟨digits, after, ds, hcs, hdigits, hds, hafter, rfl⟩
            rcases hsplit hcs hdigits hds with ⟨rfl, rfl, rfl⟩ | ⟨_, d, _, -, -, -, hd, hlt, -, -⟩
            · exact absurd (hafter c List.mem_cons_self) hspace
            · omega

-- A digit is neither white space nor a sign.
theorem of_digit (h : digit b c < b) : isspace cat c = false ∧ c ≠ lit '-' ∧ c ≠ lit '+' := by
  refine ⟨?_, ?_, ?_⟩
  · cases hspace : isspace cat c with
    | false => rfl
    | true =>
        rw [digit_isspace hspace] at h
        omega
  · rintro rfl
    have hminus : digit b (lit '-') = b := rfl
    omega
  · rintro rfl
    have hplus : digit b (lit '+') = b := rfl
    omega

theorem digits_lt {digits : List Chr} {ds : List ℕ} (h : List.Forall₂ (DigitOf b) digits ds) (hplain : ∀ c ∈ digits, Plain c)
    (hds : ∀ d ∈ ds, d < b) : ∀ c ∈ digits, digit b c < b := by
  induction h with
  | nil => exact fun c hc => absurd hc List.not_mem_nil
  | @cons c d digits ds hfirst _ ih =>
      intro c' hc'
      rcases List.mem_cons.mp hc' with rfl | hc'
      · have hd := hds d List.mem_cons_self
        rw [(digit_eq_iff (hplain c' List.mem_cons_self) hd).mpr hfirst]
        exact_mod_cast hd
      · exact ih (fun c hc => hplain c (List.mem_cons_of_mem _ hc)) (fun d hd => hds d (List.mem_cons_of_mem _ hd)) c' hc'

theorem stripSign_split (signed : Bool) (cs : List Chr) :
    ∃ sign, cs = sign ++ (stripSign signed cs).2 ∧ Sign signed sign (stripSign signed cs).1 := by
  cases cs with
  | nil => exact ⟨[], rfl, .none⟩
  | cons c cs =>
      rw [stripSign]
      split_ifs with hsign hminus
      · subst hminus
        exact ⟨[lit '-'], rfl, .minus hsign.1⟩
      · obtain ⟨hsigned, rfl | rfl⟩ := hsign
        · exact absurd rfl hminus
        · exact ⟨[lit '+'], rfl, .plus hsigned⟩
      · exact ⟨[], rfl, .none⟩

theorem stripBase_split (base : ℕ) (cs : List Chr) :
    ∃ pre, cs = pre ++ (stripBase base cs).2 ∧ Prefix base pre (stripBase base cs).1 := by
  have hplain : Prefix base [] (if base = 0 then 10 else base) := by
    split_ifs with hbase
    · rw [hbase]
      exact .decimal
    · exact .given hbase
  rcases cs with _ | ⟨c, _ | ⟨d, cs⟩⟩
  · exact ⟨[], rfl, hplain⟩
  · exact ⟨[], rfl, hplain⟩
  · rw [stripBase]
    split_ifs with hbase hzero hb ho hx
    · subst hbase hzero hb
      exact ⟨[lit '0', lit 'b'], rfl, .binary⟩
    · subst hbase hzero ho
      exact ⟨[lit '0', lit 'o'], rfl, .octal⟩
    · subst hbase hzero hx
      exact ⟨[lit '0', lit 'x'], rfl, .hexadecimal⟩
    · subst hbase
      exact ⟨[], rfl, .decimal⟩
    · subst hbase
      exact ⟨[], rfl, .decimal⟩
    · exact ⟨[], rfl, .given hbase⟩

theorem valueIn_eq_some_iff {T : IntType} {sgn v : ℤ} {o : Option ℕ} :
    valueIn T sgn o = some v ↔ ∃ w : ℕ, o = some w ∧ v = w * sgn ∧ InRange T v := by
  cases o with
  | none => simp [valueIn]
  | some w =>
      rw [valueIn]
      constructor
      · intro h
        split_ifs at h with hin
        cases h
        exact ⟨w, rfl, rfl, hin⟩
      · rintro ⟨w', hw, rfl, hin⟩
        cases hw
        exact if_pos hin

-- The value in terms of what is stripped
theorem numeralValue_eq_some {T : IntType} {base : ℕ} {cs : List Chr} {v : ℤ} (hplain : ∀ c ∈ cs, Plain c)
    (h : numeralValue cat T base cs = some v) : Numeral cat T.signed base cs v ∧ InRange T v := by
  obtain ⟨sign, hsign, hsgn⟩ := stripSign_split T.signed (cs.dropWhile (isspace cat))
  obtain ⟨pre, hpre, hmark⟩ := stripBase_split base ((stripSign T.signed (cs.dropWhile (isspace cat))).2.dropWhile (isspace cat))
  rw [numeralValue] at h
  dsimp only at h
  generalize (stripSign T.signed (cs.dropWhile (isspace cat))).1 = sgn at hsgn h
  generalize (stripSign T.signed (cs.dropWhile (isspace cat))).2 = rest at hsign hpre hmark h
  generalize (stripBase base (rest.dropWhile (isspace cat))).1 = b at hmark h
  generalize (stripBase base (rest.dropWhile (isspace cat))).2 = number at hpre h
  have hsplit : cs = cs.takeWhile (isspace cat) ++ (sign ++ (rest.takeWhile (isspace cat) ++ (pre ++ number))) := by
    rw [← hpre, List.takeWhile_append_dropWhile, ← hsign, List.takeWhile_append_dropWhile]
  cases number with
  | nil => cases h
  | cons c number =>
      dsimp only at h
      split_ifs at h with hspace
      obtain ⟨w, hread, rfl, hin⟩ := valueIn_eq_some_iff.mp h
      have hplain' : ∀ c' ∈ c :: number, Plain c' := by
        intro c' hc'
        apply hplain c'
        rw [hsplit]
        simp only [List.mem_append]
        exact .inr (.inr (.inr (.inr hc')))
      obtain ⟨digits, after, ds, hnumber, hdigits, hds, hafter, rfl⟩ := (readDigits_eq_some_iff hplain').mp hread
      refine ⟨⟨_, sign, _, pre, digits, after, sgn, b, ds, hnumber ▸ hsplit, fun _ => List.mem_takeWhile_imp, hsgn,
        fun _ => List.mem_takeWhile_imp, hmark, ?_, hdigits, hds, hafter, rfl⟩, hin⟩
      rintro rfl
      apply hspace
      apply hafter
      rw [← List.nil_append after, ← hnumber]
      exact List.mem_cons_self

theorem stripBase_eq {base : ℕ} {pre digits after : List Chr} {ds : List ℕ} (hmark : Prefix base pre b) (hne : digits ≠ [])
    (hplain : ∀ c ∈ digits, Plain c) (hdigits : List.Forall₂ (DigitOf b) digits ds) (hds : ∀ d ∈ ds, d < b)
    (hafter : ∀ c ∈ after, isspace cat c = true) : stripBase base (pre ++ (digits ++ after)) = (b, digits ++ after) := by
  have hgiven : ∀ cs : List Chr, base ≠ 0 → stripBase base cs = (base, cs) := by
    intro cs hbase
    rcases cs with _ | ⟨c, _ | ⟨d, cs⟩⟩
    · exact congrArg (·, []) (if_neg hbase)
    · exact congrArg (·, [c]) (if_neg hbase)
    · exact if_neg hbase
  cases hmark with
  | given hbase => exact hgiven _ hbase
  | binary => rfl
  | octal => rfl
  | hexadecimal => rfl
  | decimal =>
      cases hdigits with
      | nil => exact absurd rfl hne
      | @cons c d digits ds hfirst hrest =>
          -- the second character is a digit or white space, and no letter of a prefix
          have hsecond : ∀ e ∈ digits ++ after, e ≠ lit 'b' ∧ e ≠ lit 'o' ∧ e ≠ lit 'x' := by
            intro e he
            rcases List.mem_append.mp he with he | he
            · have hlt := digits_lt hrest (fun c hc => hplain c (List.mem_cons_of_mem _ hc))
                (fun d hd => hds d (List.mem_cons_of_mem _ hd)) e he
              refine ⟨?_, ?_, ?_⟩
              · rintro rfl
                exact absurd hlt (by decide)
              · rintro rfl
                exact absurd hlt (by decide)
              · rintro rfl
                exact absurd hlt (by decide)
            · have hspace := hafter e he
              refine ⟨?_, ?_, ?_⟩ <;> rintro rfl <;> cases hspace
          rw [List.nil_append, List.cons_append]
          cases hrest' : digits ++ after with
          | nil => rfl
          | cons e cs =>
              obtain ⟨hb, ho, hx⟩ := hsecond e (hrest' ▸ List.mem_cons_self)
              rw [stripBase, if_pos rfl, if_neg hb, if_neg ho, if_neg hx, ite_self]

-- What is left of the parts of a numeral
theorem strip_numeral {signed : Bool} {base : ℕ} {before sign between pre digits after : List Chr} {sgn : ℤ} {ds : List ℕ}
    (hplain' : ∀ c ∈ digits ++ after, Plain c) (hbefore : ∀ c ∈ before, isspace cat c = true) (hsign : Sign signed sign sgn)
    (hbetween : ∀ c ∈ between, isspace cat c = true) (hmark : Prefix base pre b) (hne : digits ≠ [])
    (hdigits : List.Forall₂ (DigitOf b) digits ds) (hds : ∀ d ∈ ds, d < b) (hafter : ∀ c ∈ after, isspace cat c = true) :
    let sign := stripSign signed ((before ++ (sign ++ (between ++ (pre ++ (digits ++ after))))).dropWhile (isspace cat))
    sign.1 = sgn ∧ stripBase base (sign.2.dropWhile (isspace cat)) = (b, digits ++ after) := by
  have hbase := stripBase_eq hmark hne (fun c hc => hplain' c (List.mem_append_left after hc)) hdigits hds hafter
  -- what begins the prefix and the digits
  obtain ⟨c, rest, hfirst, hspace, hminus, hplus⟩ : ∃ c rest, pre ++ (digits ++ after) = c :: rest ∧ isspace cat c = false ∧
      c ≠ lit '-' ∧ c ≠ lit '+' := by
    have hdigit := digits_lt hdigits (fun c hc => hplain' c (List.mem_append_left after hc)) hds
    cases hmark with
    | given _ =>
        obtain ⟨c, digits, rfl⟩ := List.exists_cons_of_ne_nil hne
        exact ⟨c, digits ++ after, rfl, of_digit (hdigit c List.mem_cons_self)⟩
    | decimal =>
        obtain ⟨c, digits, rfl⟩ := List.exists_cons_of_ne_nil hne
        exact ⟨c, digits ++ after, rfl, of_digit (hdigit c List.mem_cons_self)⟩
    | binary => exact ⟨lit '0', _, rfl, rfl, by decide, by decide⟩
    | octal => exact ⟨lit '0', _, rfl, rfl, by decide, by decide⟩
    | hexadecimal => exact ⟨lit '0', _, rfl, rfl, by decide, by decide⟩
  have hdrop : (c :: rest).dropWhile (isspace cat) = c :: rest := List.dropWhile_cons_of_neg (by rw [hspace]; decide)
  obtain ⟨left, hleft, hleft'⟩ : ∃ left, stripSign signed
      ((before ++ (sign ++ (between ++ (pre ++ (digits ++ after))))).dropWhile (isspace cat)) = (sgn, left) ∧
      left.dropWhile (isspace cat) = pre ++ (digits ++ after) := by
    rw [List.dropWhile_append_of_pos hbefore, hfirst]
    cases hsign with
    | none =>
        rw [List.nil_append, List.dropWhile_append_of_pos hbetween, hdrop]
        refine ⟨c :: rest, ?_, hdrop⟩
        rw [stripSign, if_neg]
        rintro ⟨-, h | h⟩
        · exact hminus h
        · exact hplus h
    | plus hsigned =>
        refine ⟨between ++ (c :: rest), ?_, by rw [List.dropWhile_append_of_pos hbetween, hdrop]⟩
        rw [List.singleton_append, List.dropWhile_cons_of_neg Bool.false_ne_true, stripSign, if_pos ⟨hsigned, .inr rfl⟩]
        rfl
    | minus hsigned =>
        refine ⟨between ++ (c :: rest), ?_, by rw [List.dropWhile_append_of_pos hbetween, hdrop]⟩
        rw [List.singleton_append, List.dropWhile_cons_of_neg Bool.false_ne_true, stripSign, if_pos ⟨hsigned, .inl rfl⟩]
        rfl
  dsimp only
  rw [hleft]
  exact ⟨rfl, by rw [hleft', hbase]⟩

-- The value that the parts of a numeral have, when the type has it
theorem numeralValue_eq_valueIn {T : IntType} {base : ℕ} {before sign between pre digits after : List Chr} {sgn : ℤ} {ds : List ℕ}
    (hplain' : ∀ c ∈ digits ++ after, Plain c) (hbefore : ∀ c ∈ before, isspace cat c = true) (hsign : Sign T.signed sign sgn)
    (hbetween : ∀ c ∈ between, isspace cat c = true) (hmark : Prefix base pre b) (hne : digits ≠ [])
    (hdigits : List.Forall₂ (DigitOf b) digits ds) (hds : ∀ d ∈ ds, d < b) (hafter : ∀ c ∈ after, isspace cat c = true) :
    numeralValue cat T base (before ++ (sign ++ (between ++ (pre ++ (digits ++ after))))) =
      valueIn T sgn (some (Parse.value b ds 0)) := by
  obtain ⟨hsgn, hbase⟩ := strip_numeral hplain' hbefore hsign hbetween hmark hne hdigits hds hafter
  have hread : readDigits cat b 0 (digits ++ after) = some (Parse.value b ds 0) :=
    (readDigits_eq_some_iff hplain').mpr ⟨digits, after, ds, rfl, hdigits, hds, hafter, rfl⟩
  rw [numeralValue]
  dsimp only
  rw [hsgn, hbase]
  obtain ⟨c', digits, rfl⟩ := List.exists_cons_of_ne_nil hne
  have hdigit := digits_lt hdigits (fun c hc => hplain' c (List.mem_append_left after hc)) hds c' List.mem_cons_self
  rw [List.cons_append] at hread ⊢
  dsimp only
  rw [if_neg (by rw [(of_digit hdigit).1]; decide), hread]

theorem numeralValue_of_numeral {T : IntType} {base : ℕ} {cs : List Chr} {v : ℤ} (hplain : ∀ c ∈ cs, Plain c)
    (hnumeral : Numeral cat T.signed base cs v) (hin : InRange T v) : numeralValue cat T base cs = some v := by
  obtain ⟨before, sign, between, pre, digits, after, sgn, b, ds, rfl, hbefore, hsign, hbetween, hmark, hne, hdigits, hds, hafter, rfl⟩ :=
    hnumeral
  have hplain' : ∀ c ∈ digits ++ after, Plain c := by
    intro c hc
    apply hplain c
    simp only [List.mem_append] at hc ⊢
    exact .inr (.inr (.inr (.inr hc)))
  rw [numeralValue_eq_valueIn hplain' hbefore hsign hbetween hmark hne hdigits hds hafter]
  exact valueIn_eq_some_iff.mpr ⟨_, rfl, rfl, hin⟩

theorem numeralValue_eq_some_iff {T : IntType} {base : ℕ} {cs : List Chr} {v : ℤ} (hplain : ∀ c ∈ cs, Plain c) :
    numeralValue cat T base cs = some v ↔ Numeral cat T.signed base cs v ∧ InRange T v :=
  ⟨numeralValue_eq_some hplain, fun h => numeralValue_of_numeral hplain h.1 h.2⟩

end Grammar

theorem checkValidBase_eq {base : Option ℕ} (hbase : ∀ b ∈ base, 2 ≤ b ∧ b ≤ 62) :
    checkValidBase (base.map Nat.cast) = .ok ((base.getD 0 : ℕ) : ℤ) := by
  cases base with
  | none => rfl
  | some b =>
      have hb := hbase b rfl
      exact if_pos (by omega)

-- A text is read as a number of a type exactly when it is a numeral whose value the type has, and no character is read
-- outside it.
theorem tryparse_reads_numerals (utf8procCategory : BitVec 32 → ℕ) (s : Str) : ∃ blocks : List Block, Yields s 0 blocks ∧
    ∀ (T : IntType) (base : Option ℕ), (∀ b ∈ base, 2 ≤ b ∧ b ≤ 62) →
      let numeral := fun v => Numeral utf8procCategory T.signed (base.getD 0) (blocks.map Block.char) v ∧ InRange T v
      (∀ v, tryparse utf8procCategory T s (base.map Nat.cast) = .ok (some v) ↔ numeral v) ∧
      ((∀ v, ¬numeral v) → tryparse utf8procCategory T s (base.map Nat.cast) = .ok none) ∧
      (∀ v, parse utf8procCategory T s (base.map Nat.cast) = .ok v ↔ numeral v) ∧
      ((∀ v, ¬numeral v) → ∃ e, parse utf8procCategory T s (base.map Nat.cast) = .error e ∧
        e ≠ .outside ∧ e ≠ .endless ∧ e ≠ .error) := by
  have hfirst : 0 = s.data.length ∨ IsStart s.data 0 := by
    rcases Nat.eq_zero_or_pos s.data.length with hzero | hpos
    · exact .inl hzero.symm
    · exact .inr (isStart_zero hpos)
  obtain ⟨blocks, htiling⟩ := exists_tiling hfirst
  obtain ⟨endpos, hlast, hlt, hge, hend⟩ := exists_lastindex s
  have hleft := Left.of_yields htiling.yields hfirst hend hlt
  have hlength : (blocks.map Block.char).length ≤ s.data.length := by
    have hle := hleft.length_le (by rw [Nat.cast_zero]; omega)
    rw [Nat.cast_zero] at hle
    omega
  have hplain : ∀ c ∈ blocks.map Block.char, Plain c := by
    intro c hc
    obtain ⟨b, hb, rfl⟩ := List.mem_map.mp hc
    exact plain_of_ok (htiling.ok b hb)
  refine ⟨blocks, htiling.yields, fun T base hbase => ?_⟩
  have hbase' : base.getD 0 = 0 ∨ 2 ≤ base.getD 0 ∧ base.getD 0 ≤ 62 := by
    cases base with
    | none => exact .inl rfl
    | some b => exact .inr (hbase b rfl)
  have hspec : ∀ v, numeralValue utf8procCategory T (base.getD 0) (blocks.map Block.char) = some v ↔
      Numeral utf8procCategory T.signed (base.getD 0) (blocks.map Block.char) v ∧ InRange T v := fun v => numeralValue_eq_some_iff hplain
  have htry : tryparse utf8procCategory T s (base.map Nat.cast) =
      tryparseInternal utf8procCategory T s 0 endpos (base.getD 0 : ℕ) false := by
    rw [tryparse, checkValidBase_eq hbase, hlast]
    rfl
  have hparse : parse utf8procCategory T s (base.map Nat.cast) =
      tryparseInternal utf8procCategory T s 0 endpos (base.getD 0 : ℕ) true >>= fun r =>
        match r with
        | some v => .ok v
        | none => .error .error := by
    rw [parse, checkValidBase_eq hbase, hlast]
    rfl
  have hfalse := tryparseInternal_spec utf8procCategory T hleft hlength hbase' false
  have htrue := tryparseInternal_spec utf8procCategory T hleft hlength hbase' true
  dsimp only
  simp only [← hspec]
  rw [htry, hparse]
  cases hvalue : numeralValue utf8procCategory T (base.getD 0) (blocks.map Block.char) with
  | none =>
      rw [hvalue] at hfalse htrue
      obtain ⟨e, he, houtside, hendless, herror⟩ := htrue
      rw [show tryparseInternal utf8procCategory T s 0 endpos (base.getD 0 : ℕ) false = .ok none from hfalse, he]
      refine ⟨fun v => by simp, fun _ => rfl, fun v => by simp, fun _ => ⟨e, rfl, houtside, hendless, herror⟩⟩
  | some w =>
      rw [hvalue] at hfalse htrue
      rw [show tryparseInternal utf8procCategory T s 0 endpos (base.getD 0 : ℕ) false = .ok (some w) from hfalse,
        show tryparseInternal utf8procCategory T s 0 endpos (base.getD 0 : ℕ) true = .ok (some w) from htrue]
      refine ⟨fun v => by simp, fun hnone => absurd rfl (hnone w), fun v => ?_, fun hnone => absurd rfl (hnone w)⟩
      simp

end Joolia.Tryparse
