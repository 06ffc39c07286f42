import Mathlib

-- Days in consecutive cells of varying length, as the months of a year
structure Calendar where
  first : ℤ → ℤ
  cell : ℤ → ℤ
  first_strictMono : StrictMono first
  first_cell_le (x : ℤ) : first (cell x) ≤ x
  lt_first_succ (x : ℤ) : x < first (cell x + 1)

namespace Calendar

variable (C : Calendar) {x y M N d : ℤ}

section Days

def length (M : ℤ) : ℤ := C.first (M + 1) - C.first M

-- The place of a day in its cell, from 1 on
def day (x : ℤ) : ℤ := x - C.first (C.cell x) + 1

-- The day `d` of a cell, or its last day
def place (M d : ℤ) : ℤ := C.first M + min d (C.length M) - 1

def advance (n x : ℤ) : ℤ := C.place (C.cell x + n) (C.day x)

theorem length_pos (M : ℤ) : 0 < C.length M := sub_pos.mpr (C.first_strictMono (Int.lt_succ M))

theorem day_pos (x : ℤ) : 1 ≤ C.day x := by
  have hfirst := C.first_cell_le x
  unfold day
  omega

theorem day_le (x : ℤ) : C.day x ≤ C.length (C.cell x) := by
  have hlast := C.lt_first_succ x
  unfold day length
  omega

theorem first_add_day (x : ℤ) : C.first (C.cell x) + C.day x = x + 1 := by
  unfold day
  omega

theorem lt_of_cell_lt (h : C.cell x < C.cell y) : x < y := by
  have hnext := C.first_strictMono.monotone (Int.add_one_le_of_lt h)
  exact (C.lt_first_succ x).trans_le (hnext.trans (C.first_cell_le y))

theorem cell_mono (h : x ≤ y) : C.cell x ≤ C.cell y := by
  by_contra hlt
  exact absurd (C.lt_of_cell_lt (not_le.mp hlt)) (not_lt.mpr h)

theorem first_add_ge (M : ℤ) {n : ℤ} (hn : 0 ≤ n) : C.first M + n ≤ C.first (M + n) := by
  induction n, hn using Int.leInduction with
  | base => simp
  | succ n _ ih =>
      have hlt := C.first_strictMono (Int.lt_succ (M + n))
      rw [← add_assoc, ← add_assoc]
      omega

theorem cell_sub_le (h : x ≤ y) : C.cell y - C.cell x ≤ y - x := by
  rcases (C.cell_mono h).lt_or_eq with hlt | heq
  · have hge := C.first_add_ge (C.cell x + 1) (show 0 ≤ C.cell y - C.cell x - 1 by omega)
    have hx := C.lt_first_succ x
    have hy := C.first_cell_le y
    rw [show C.cell x + 1 + (C.cell y - C.cell x - 1) = C.cell y by omega] at hge
    omega
  · omega

theorem cell_unique (hfirst : C.first M ≤ x) (hlast : x < C.first (M + 1)) : C.cell x = M := by
  have hle := C.first_strictMono.lt_iff_lt.mp ((C.first_cell_le x).trans_lt hlast)
  have hge := C.first_strictMono.lt_iff_lt.mp (hfirst.trans_lt (C.lt_first_succ x))
  omega

theorem le_iff : x ≤ y ↔ C.cell x < C.cell y ∨ C.cell x = C.cell y ∧ C.day x ≤ C.day y := by
  have hx := C.first_add_day x
  have hy := C.first_add_day y
  constructor
  · intro hle
    rcases (C.cell_mono hle).lt_or_eq with hlt | heq
    · exact .inl hlt
    · rw [heq] at hx
      exact .inr ⟨heq, by omega⟩
  · rintro (hlt | ⟨heq, hle⟩)
    · exact (C.lt_of_cell_lt hlt).le
    · rw [heq] at hx
      omega

theorem cell_place (M : ℤ) (hd : 1 ≤ d) : C.cell (C.place M d) = M := by
  have hpos := C.length_pos M
  apply C.cell_unique
  · unfold place
    omega
  · unfold place
    unfold length at *
    omega

theorem day_place (M : ℤ) (hd : 1 ≤ d) : C.day (C.place M d) = min d (C.length M) := by
  rw [day, C.cell_place M hd, place]
  omega

@[simp] theorem cell_advance (n x : ℤ) : C.cell (C.advance n x) = C.cell x + n := C.cell_place _ (C.day_pos x)

@[simp] theorem day_advance (n x : ℤ) : C.day (C.advance n x) = min (C.day x) (C.length (C.cell x + n)) :=
  C.day_place _ (C.day_pos x)

@[simp] theorem advance_zero (x : ℤ) : C.advance 0 x = x := by
  have hsum := C.first_add_day x
  rw [advance, add_zero, place, min_eq_left (C.day_le x)]
  omega

theorem advance_strictMono (x : ℤ) : StrictMono fun n => C.advance n x := by
  intro m n hmn
  apply C.lt_of_cell_lt
  rw [cell_advance, cell_advance]
  omega

theorem advance_le_iff (n : ℤ) : C.advance n x ≤ y ↔
    C.cell x + n < C.cell y ∨ C.cell x + n = C.cell y ∧ min (C.day x) (C.length (C.cell y)) ≤ C.day y := by
  rw [C.le_iff, cell_advance, day_advance]
  apply or_congr_right
  apply and_congr_right
  intro hcell
  rw [hcell]

-- A day that the cell has needs no cut.
theorem le_advance_iff (n : ℤ) : y ≤ C.advance n x ↔ C.cell y < C.cell x + n ∨ C.cell y = C.cell x + n ∧ C.day y ≤ C.day x := by
  rw [C.le_iff, cell_advance, day_advance]
  apply or_congr_right
  apply and_congr_right
  intro hcell
  rw [← hcell, le_min_iff]
  exact and_iff_left (C.day_le y)

end Days

-- A loop that takes steps until it has passed `hi`, and the number of steps that it counts before it has
inductive Counts (next : ℤ → ℤ) (hi : ℤ) : ℤ → ℤ → ℤ → Prop
  | done {x i : ℤ} : hi < x → Counts next hi x i (i - 1)
  | step {x i K : ℤ} : x ≤ hi → Counts next hi (next x) (i + 1) K → Counts next hi x i K

theorem Counts.le {next : ℤ → ℤ} {hi x i K : ℤ} (h : Counts next hi x i K) : i ≤ K + 1 := by
  induction h with
  | done => omega
  | step _ _ ih => omega

section Walk

variable {g lo hi i : ℤ}

-- The steps of `g` cells that do not leave the cell of `hi` behind
def steps (g lo hi : ℤ) : ℤ := (C.cell hi - C.cell lo) / g

theorem steps_le (lo hi : ℤ) (hg : 0 < g) : C.cell lo + g * C.steps g lo hi ≤ C.cell hi := by
  have hle := Int.mul_ediv_self_le (x := C.cell hi - C.cell lo) hg.ne'
  unfold steps
  omega

theorem lt_steps_succ (lo hi : ℤ) (hg : 0 < g) : C.cell hi < C.cell lo + g * (C.steps g lo hi + 1) := by
  have hlt := Int.lt_mul_ediv_self_add (x := C.cell hi - C.cell lo) hg
  rw [mul_add, mul_one]
  unfold steps
  omega

theorem steps_eq_iff (g lo hi : ℤ) : C.cell lo + g * C.steps g lo hi = C.cell hi ↔ g ∣ C.cell hi - C.cell lo := by
  constructor
  · intro heq
    exact ⟨C.steps g lo hi, by omega⟩
  · intro hdvd
    have hmul := Int.mul_ediv_cancel' hdvd
    unfold steps
    omega

theorem cell_lt_of_lt (hg : 0 < g) (h : i < C.steps g lo hi) : C.cell lo + g * i < C.cell hi := by
  have hmul := mul_lt_mul_of_pos_left h hg
  have hle := C.steps_le lo hi hg
  omega

theorem lt_cell_of_gt (hg : 0 < g) (h : C.steps g lo hi < i) : C.cell hi < C.cell lo + g * i := by
  have hmul := mul_le_mul_of_nonneg_left (Int.add_one_le_of_lt h) hg.le
  have hlt := C.lt_steps_succ lo hi hg
  omega

-- Every cell that the walk still visits has a day after that of `hi`.
def Passes (g lo hi i x : ℤ) : Prop :=
  g ∣ C.cell hi - C.cell lo ∧ C.day hi < C.day x ∧
    ∀ j, i < j → j ≤ C.steps g lo hi → C.day hi < C.length (C.cell lo + g * j)

theorem passes_succ (hcell : C.cell x = C.cell lo + g * i) (hi' : i < C.steps g lo hi) :
    C.Passes g lo hi (i + 1) (C.advance g x) ↔ C.Passes g lo hi i x := by
  have hnext : C.cell x + g = C.cell lo + g * (i + 1) := by rw [hcell, mul_add, mul_one, add_assoc]
  unfold Passes
  rw [day_advance, hnext, lt_min_iff]
  constructor
  · rintro ⟨hdvd, ⟨hday, hlength⟩, hrest⟩
    refine ⟨hdvd, hday, fun j hj hle => ?_⟩
    rcases eq_or_lt_of_le (Int.add_one_le_of_lt hj) with rfl | hlt
    · exact hlength
    · exact hrest j hlt hle
  · rintro ⟨hdvd, hday, hrest⟩
    exact ⟨hdvd, ⟨hday, hrest (i + 1) (by omega) (by omega)⟩, fun j hj => hrest j (by omega)⟩

open Classical in
-- The induction is on the steps that are left; the day of the walk is cut down cell by cell.
theorem counts_from (hg : 0 < g) (hcell : C.cell x = C.cell lo + g * i) (hle : i ≤ C.steps g lo hi) :
    Counts (C.advance g) hi x i (if C.Passes g lo hi i x then C.steps g lo hi - 1 else C.steps g lo hi) := by
  obtain ⟨n, hn⟩ : ∃ n : ℕ, C.steps g lo hi = i + n := ⟨(C.steps g lo hi - i).toNat, by omega⟩
  induction n generalizing i x with
  | zero =>
      have hlast : C.steps g lo hi = i := by omega
      have hrest : C.Passes g lo hi i x ↔ g ∣ C.cell hi - C.cell lo ∧ C.day hi < C.day x := by
        unfold Passes
        exact and_congr_right fun _ => and_iff_left fun j hj hj' => by omega
      have hend : Counts (C.advance g) hi (C.advance g x) (i + 1) i := by
        have hpast : C.cell hi < C.cell lo + g * (i + 1) := C.lt_cell_of_gt hg (by omega)
        have hlate : hi < C.advance g x := by
          apply C.lt_of_cell_lt
          rw [cell_advance, hcell, add_assoc, ← mul_add_one]
          exact hpast
        have hcount : Counts (C.advance g) hi (C.advance g x) (i + 1) (i + 1 - 1) := .done hlate
        rwa [add_sub_cancel_right] at hcount
      have hcell_le := C.steps_le lo hi hg
      have hdvd := C.steps_eq_iff g lo hi
      rw [hlast, ← hcell] at hcell_le hdvd
      by_cases hpass : C.Passes g lo hi i x
      · rw [if_pos hpass, hlast]
        obtain ⟨haligned, hday⟩ := hrest.mp hpass
        apply Counts.done
        rw [← not_le, C.le_iff]
        have heq := hdvd.mpr haligned
        omega
      · rw [if_neg hpass, hlast]
        apply Counts.step _ hend
        rw [C.le_iff]
        rw [hrest, ← hdvd] at hpass
        omega
  | succ n ih =>
      have hlt : i < C.steps g lo hi := by omega
      have hnext : C.cell (C.advance g x) = C.cell lo + g * (i + 1) := by
        rw [cell_advance, hcell, add_assoc, ← mul_add_one]
      have hwalk := ih hnext (by omega) (by omega)
      rw [if_congr (C.passes_succ hcell hlt) rfl rfl] at hwalk
      apply Counts.step _ hwalk
      apply (C.lt_of_cell_lt _).le
      rw [hcell]
      exact C.cell_lt_of_lt hg hlt

end Walk

-- `days / per` as the average length of a cell, close enough that a number of days tells the cells within one
structure Average (C : Calendar) where
  days : ℤ
  per : ℤ
  shortest : ℤ
  spread : ℤ
  per_pos : 0 < per
  days_pos : 0 < days
  length_ge (M : ℤ) : shortest ≤ C.length M
  length_le (M : ℤ) : C.length M ≤ shortest + spread
  longest_le : (shortest + spread) * per ≤ 2 * days
  first_lt (M n : ℤ) : 0 ≤ n → per * (C.first (M + n) - C.first M) < days * (n + 1) + per
  le_first (M n : ℤ) : 0 ≤ n → days * (n - 1) ≤ per * (C.first (M + n) - C.first M - spread)

section Reach

variable {C} (A : C.Average)

def Average.longest : ℤ := A.shortest + A.spread

theorem Average.first_add_le (M : ℤ) {n : ℤ} (hn : 0 ≤ n) : C.first (M + n) ≤ C.first M + A.longest * n := by
  induction n, hn using Int.leInduction with
  | base => simp
  | succ n _ ih =>
      have hlength := A.length_le (M + n)
      unfold length at hlength
      rw [← add_assoc, mul_add, mul_one]
      unfold longest at *
      omega

-- Days are as far apart as their cells allow.
theorem Average.lt_of_cell_le {n : ℤ} (hn : 0 ≤ n) (hcell : C.cell y ≤ C.cell x + n) : y < x + A.longest * (n + 1) := by
  have hnext := C.first_strictMono.monotone (show C.cell y + 1 ≤ C.cell x + (n + 1) by omega)
  have hfirst := A.first_add_le (C.cell x) (show 0 ≤ n + 1 by omega)
  have hy := C.lt_first_succ y
  have hx := C.first_cell_le x
  omega

end Reach

section Guess

variable {C} (A : C.Average) {g lo hi i : ℤ}

-- The steps of `g` cells by their average length
def Average.guess (g lo hi : ℤ) : ℤ := A.per * (hi - lo) / (A.days * g)

theorem Average.guess_le_iff (hg : 0 < g) : A.guess g lo hi ≤ i ↔ A.per * (hi - lo) < A.days * (g * (i + 1)) := by
  have hpos := mul_pos A.days_pos hg
  rw [guess, ← Int.lt_add_one_iff, Int.ediv_lt_iff_lt_mul hpos, mul_comm (i + 1), mul_assoc]

theorem Average.le_guess_iff (hg : 0 < g) : i ≤ A.guess g lo hi ↔ A.days * (g * i) ≤ A.per * (hi - lo) := by
  have hpos := mul_pos A.days_pos hg
  rw [guess, Int.le_ediv_iff_mul_le hpos, mul_comm i, mul_assoc]

theorem Average.guess_le_of_days {n : ℤ} (hg : 0 < g) (hn : 0 ≤ n) (hcells : n + 1 ≤ g * (i + 1))
    (hdays : hi - lo ≤ C.first (C.cell lo + n) - C.first (C.cell lo) - 1) : A.guess g lo hi ≤ i := by
  have hfirst := A.first_lt (C.cell lo) n hn
  have hscaled := mul_le_mul_of_nonneg_left hdays A.per_pos.le
  have haverage := mul_le_mul_of_nonneg_left hcells A.days_pos.le
  rw [A.guess_le_iff hg]
  rw [mul_sub A.per (_ - _), mul_one] at hscaled
  omega

theorem Average.guess_le (hg : 0 < g) (hle : lo ≤ hi) : A.guess g lo hi ≤ C.steps g lo hi + 1 := by
  have hcell := C.cell_mono hle
  have hnext := C.lt_steps_succ lo hi hg
  apply A.guess_le_of_days (n := C.cell hi - C.cell lo + 1) hg (by omega)
  · rw [mul_add g (C.steps g lo hi + 1), mul_one]
    omega
  · have hlo := C.first_cell_le lo
    have hhi := C.lt_first_succ hi
    rw [show C.cell lo + (C.cell hi - C.cell lo + 1) = C.cell hi + 1 by omega]
    omega

-- Before the day of `lo`, the last cell is not counted.
theorem Average.guess_le_of_day_lt (hg : 0 < g) (hle : lo ≤ hi) (hday : C.day hi < C.day lo) :
    A.guess g lo hi ≤ C.steps g lo hi := by
  have hcell := C.cell_mono hle
  have hnext := C.lt_steps_succ lo hi hg
  apply A.guess_le_of_days (n := C.cell hi - C.cell lo) hg (by omega) (by omega)
  have hlo := C.first_add_day lo
  have hhi := C.first_add_day hi
  rw [add_sub_cancel]
  omega

theorem Average.le_guess (hg : 0 < g) (hle : lo ≤ hi) (hdvd : g ∣ C.cell hi - C.cell lo) (hday : A.shortest ≤ C.day hi) :
    C.steps g lo hi - 1 ≤ A.guess g lo hi := by
  have hcell := C.cell_mono hle
  have hend := (C.steps_eq_iff g lo hi).mpr hdvd
  have hfirst := A.le_first (C.cell lo) (C.cell hi - C.cell lo) (by omega)
  have hlo := C.first_add_day lo
  have hhi := C.first_add_day hi
  have hcut := (C.day_le lo).trans (A.length_le _)
  have hdays := mul_le_mul_of_nonneg_left (show C.first (C.cell hi) - C.first (C.cell lo) - A.spread ≤ hi - lo by omega) A.per_pos.le
  have haverage := mul_le_mul_of_nonneg_left (show g * (C.steps g lo hi - 1) ≤ C.cell hi - C.cell lo - 1 by
    rw [mul_sub]
    omega) A.days_pos.le
  rw [add_sub_cancel] at hfirst
  rw [A.le_guess_iff hg]
  omega

theorem Average.guess_nonneg (hg : 0 < g) (hle : lo ≤ hi) : 0 ≤ A.guess g lo hi := by
  rw [A.le_guess_iff hg, mul_zero, mul_zero]
  exact mul_nonneg A.per_pos.le (sub_nonneg.mpr hle)

theorem Average.longest_nonneg : 0 ≤ A.longest := (C.length_pos 0).le.trans (A.length_le 0)

-- The guess does not lead far away.
theorem Average.reach_guess (hg : 0 < g) (hle : lo ≤ hi) : A.longest * (g * A.guess g lo hi) ≤ 2 * (hi - lo) := by
  have hguess := mul_le_mul_of_nonneg_left ((A.le_guess_iff hg).mp (le_refl (A.guess g lo hi))) A.longest_nonneg
  have hlongest := mul_le_mul_of_nonneg_right A.longest_le (sub_nonneg.mpr hle)
  apply le_of_mul_le_mul_left _ A.days_pos
  calc A.days * (A.longest * (g * A.guess g lo hi)) = A.longest * (A.days * (g * A.guess g lo hi)) := by ring
    _ ≤ A.longest * (A.per * (hi - lo)) := hguess
    _ = (A.shortest + A.spread) * A.per * (hi - lo) := by rw [longest, mul_assoc]
    _ ≤ 2 * A.days * (hi - lo) := hlongest
    _ = A.days * (2 * (hi - lo)) := by ring

theorem steps_le_sub (hle : lo ≤ hi) : C.steps g lo hi ≤ hi - lo :=
  (Int.ediv_le_self g (sub_nonneg.mpr (C.cell_mono hle))).trans (C.cell_sub_le hle)

-- `hi` lies in a cell of the steps, before the day that they reach in it.
def Clamped (C : Calendar) (g lo hi : ℤ) : Prop :=
  g ∣ C.cell hi - C.cell lo ∧ C.day hi < C.day lo ∧ C.day hi < C.length (C.cell hi)

-- The guess leaves a step to the walk, which has lost days in the cell before.
def Average.Short (g lo hi : ℤ) : Prop :=
  A.per * (hi - lo) < A.days * (C.cell hi - C.cell lo) ∧ C.length (C.cell hi - g) ≤ C.day hi

instance : Decidable (C.Clamped g lo hi) := inferInstanceAs (Decidable (_ ∧ _))

instance : Decidable (A.Short g lo hi) := inferInstanceAs (Decidable (_ ∧ _))

theorem Average.passes_iff (hg : 0 < g) (hle : lo ≤ hi) (hguess : A.guess g lo hi ≤ C.steps g lo hi) :
    C.Passes g lo hi (A.guess g lo hi) (C.advance (g * A.guess g lo hi) lo) ↔ C.Clamped g lo hi ∧ ¬A.Short g lo hi := by
  unfold Passes Clamped
  rw [day_advance, lt_min_iff]
  constructor
  · rintro ⟨hdvd, ⟨hday, hlength⟩, hrest⟩
    have hend := (C.steps_eq_iff g lo hi).mpr hdvd
    have hvisited : ∀ j, A.guess g lo hi ≤ j → j ≤ C.steps g lo hi → C.day hi < C.length (C.cell lo + g * j) := by
      intro j hj hj'
      rcases eq_or_lt_of_le hj with rfl | hlt
      · exact hlength
      · exact hrest j hlt hj'
    have hlast := hvisited _ hguess (le_refl _)
    rw [hend] at hlast
    refine ⟨⟨hdvd, hday, hlast⟩, ?_⟩
    rintro ⟨hdays, hcut⟩
    have hleft : A.guess g lo hi ≤ C.steps g lo hi - 1 := by
      rw [A.guess_le_iff hg, sub_add_cancel, show g * C.steps g lo hi = C.cell hi - C.cell lo by omega]
      exact hdays
    have hbefore := hvisited _ hleft (by omega)
    rw [mul_sub, mul_one, ← add_sub_assoc, hend] at hbefore
    omega
  · rintro ⟨⟨hdvd, hday, hlast⟩, hshort⟩
    have hend := (C.steps_eq_iff g lo hi).mpr hdvd
    have hvisited : ∀ j, A.guess g lo hi ≤ j → j ≤ C.steps g lo hi → C.day hi < C.length (C.cell lo + g * j) := by
      intro j hj hj'
      by_cases hsmall : C.day hi < A.shortest
      · exact hsmall.trans_le (A.length_ge _)
      · have hnear := A.le_guess hg hle hdvd (not_lt.mp hsmall)
        rcases eq_or_lt_of_le hj' with rfl | hlt
        · rwa [hend]
        · have hpred : j = C.steps g lo hi - 1 := by omega
          have hdays : A.per * (hi - lo) < A.days * (C.cell hi - C.cell lo) := by
            have hleft := (A.guess_le_iff hg).mp (hj.trans hpred.le)
            rwa [sub_add_cancel, show g * C.steps g lo hi = C.cell hi - C.cell lo by omega] at hleft
          rw [hpred, mul_sub, mul_one, ← add_sub_assoc, hend]
          exact not_le.mp fun hcut => hshort ⟨hdays, hcut⟩
    exact ⟨hdvd, ⟨hday, hvisited _ (le_refl _) hguess⟩, fun j hj => hvisited j hj.le⟩

-- What the walk counts
def Average.count (g lo hi : ℤ) : ℤ :=
  if C.Clamped g lo hi ∧ ¬A.Short g lo hi then C.steps g lo hi - 1 else C.steps g lo hi

open Classical in
theorem Average.counts_guess (hg : 0 < g) (hle : lo ≤ hi) :
    Counts (C.advance g) hi (C.advance (g * A.guess g lo hi) lo) (A.guess g lo hi) (A.count g lo hi) := by
  by_cases hguess : A.guess g lo hi ≤ C.steps g lo hi
  · have hwalk := C.counts_from hg (C.cell_advance (g * A.guess g lo hi) lo) hguess
    rwa [if_congr (A.passes_iff hg hle hguess) rfl rfl] at hwalk
  · have heq : A.guess g lo hi = C.steps g lo hi + 1 := by
      have := A.guess_le hg hle
      omega
    have hlate : ¬C.Clamped g lo hi := fun hclamped => hguess (A.guess_le_of_day_lt hg hle hclamped.2.1)
    have hpast := C.lt_cell_of_gt hg (show C.steps g lo hi < A.guess g lo hi by omega)
    have hlast : hi < C.advance (g * A.guess g lo hi) lo := C.lt_of_cell_lt (by rwa [cell_advance])
    have hcount : Counts (C.advance g) hi _ (A.guess g lo hi) (A.guess g lo hi - 1) := .done hlast
    rw [count, if_neg fun h => hlate h.1]
    rwa [show A.guess g lo hi - 1 = C.steps g lo hi by omega] at hcount

theorem Average.count_le (g lo hi : ℤ) : A.count g lo hi ≤ C.steps g lo hi := by
  unfold count
  split <;> omega

-- From any earlier start, the walk counts something.
theorem exists_counts (hg : 0 < g) (hle : lo ≤ hi) (hi' : i ≤ 0) :
    ∃ K, K ≤ C.steps g lo hi ∧ Counts (C.advance g) hi (C.advance (g * i) lo) i K := by
  classical
  have hcell := C.cell_mono hle
  have hwalk := C.counts_from hg (C.cell_advance (g * i) lo) (hi'.trans (Int.ediv_nonneg (show 0 ≤ C.cell hi - C.cell lo by omega) hg.le))
  exact ⟨_, by split <;> omega, hwalk⟩

end Guess

section Reached

variable {g x y k : ℤ}

-- The last `k` with `advance (g * k) x ≤ y`
def lastUp (g x y : ℤ) : ℤ := if C.Clamped g x y then C.steps g x y - 1 else C.steps g x y

-- The last `k` with `y ≤ advance (-(g * k)) x`
def lastDown (g x y : ℤ) : ℤ :=
  if g ∣ C.cell x - C.cell y ∧ C.day x < C.day y then C.steps g y x - 1 else C.steps g y x

theorem advance_le_iff_le_lastUp (hg : 0 < g) : C.advance (g * k) x ≤ y ↔ k ≤ C.lastUp g x y := by
  have hdvd := C.steps_eq_iff g x y
  have hclamped : C.Clamped g x y ↔ g ∣ C.cell y - C.cell x ∧ C.day y < C.day x ∧ C.day y < C.length (C.cell y) := Iff.rfl
  rw [advance_le_iff, lastUp]
  rcases lt_trichotomy k (C.steps g x y) with hlt | rfl | hgt
  · have hcell := C.cell_lt_of_lt hg hlt
    split <;> omega
  · have hcell := C.steps_le x y hg
    split
    · rename_i hcut
      rw [hclamped, ← hdvd] at hcut
      omega
    · rename_i hcut
      rw [hclamped, ← hdvd] at hcut
      omega
  · have hcell := C.lt_cell_of_gt hg hgt
    split <;> omega

theorem le_advance_iff_le_lastDown (hg : 0 < g) : y ≤ C.advance (-(g * k)) x ↔ k ≤ C.lastDown g x y := by
  have hdvd := C.steps_eq_iff g y x
  rw [le_advance_iff, lastDown]
  rcases lt_trichotomy k (C.steps g y x) with hlt | rfl | hgt
  · have hcell := C.cell_lt_of_lt hg hlt
    split <;> omega
  · have hcell := C.steps_le y x hg
    split <;> omega
  · have hcell := C.lt_cell_of_gt hg hgt
    split <;> omega

theorem steps_advance (hg : 0 < g) (x k : ℤ) : C.steps g x (C.advance (g * k) x) = k := by
  rw [steps, cell_advance, add_sub_cancel_left, Int.mul_ediv_cancel_left k hg.ne']

theorem steps_advance_neg (hg : 0 < g) (x k : ℤ) : C.steps g (C.advance (-(g * k)) x) x = k := by
  rw [steps, cell_advance, show C.cell x - (C.cell x + -(g * k)) = g * k by omega, Int.mul_ediv_cancel_left k hg.ne']

variable {C} (A : C.Average)

-- To a day that the steps reach, the walk counts them.
theorem Average.count_advance (hg : 0 < g) (x k : ℤ) : A.count g x (C.advance (g * k) x) = k := by
  have hday : ¬C.Clamped g x (C.advance (g * k) x) := by
    rintro ⟨-, hday, hlength⟩
    rw [day_advance] at hday hlength
    rw [cell_advance] at hlength
    omega
  rw [count, if_neg fun h => hday h.1, C.steps_advance hg]

theorem Average.count_advance_neg (hg : 0 < g) (x k : ℤ) : A.count g (C.advance (-(g * k)) x) x = k := by
  have hday : ¬C.Clamped g (C.advance (-(g * k)) x) x := by
    rintro ⟨-, hday, -⟩
    rw [day_advance] at hday
    omega
  rw [count, if_neg fun h => hday h.1, C.steps_advance_neg hg]

-- Of two conditions for one step less, the stronger one counts one too many where only the weaker one holds.
theorem pred_or_self {p q : Prop} [Decidable p] [Decidable q] (h : q → p) (k : ℤ) :
    (if p then k - 1 else k) ≤ (if q then k - 1 else k) ∧ (if q then k - 1 else k) ≤ (if p then k - 1 else k) + 1 ∧
      ((if q then k - 1 else k) = (if p then k - 1 else k) ↔ ¬(p ∧ ¬q)) := by
  by_cases hp : p
  · rw [if_pos hp]
    by_cases hq : q
    · rw [if_pos hq]
      exact ⟨le_refl _, by omega, iff_of_true rfl fun hboth => hboth.2 hq⟩
    · rw [if_neg hq]
      exact ⟨by omega, by omega, iff_of_false (by omega) fun hnot => hnot ⟨hp, hq⟩⟩
  · have hq : ¬q := fun hq => hp (h hq)
    rw [if_neg hp, if_neg hq]
    exact ⟨le_refl _, by omega, iff_of_true rfl fun hboth => hp hboth.1⟩

theorem Average.count_lastUp (g x y : ℤ) :
    C.lastUp g x y ≤ A.count g x y ∧ A.count g x y ≤ C.lastUp g x y + 1 ∧
      (A.count g x y = C.lastUp g x y ↔ ¬(C.Clamped g x y ∧ A.Short g x y)) := by
  obtain ⟨hle, hge, hiff⟩ := pred_or_self (p := C.Clamped g x y) (q := C.Clamped g x y ∧ ¬A.Short g x y) And.left (C.steps g x y)
  refine ⟨hle, hge, hiff.trans (not_congr (and_congr_right fun hclamped => ?_))⟩
  rw [not_and_not_right]
  exact forall_prop_of_true hclamped

-- Downwards, the day that is reached is that of `x`, which may be the last one of its month.
theorem Average.count_lastDown (g x y : ℤ) :
    C.lastDown g x y ≤ A.count g y x ∧ A.count g y x ≤ C.lastDown g x y + 1 ∧
      (A.count g y x = C.lastDown g x y ↔
        ¬((g ∣ C.cell x - C.cell y ∧ C.day x < C.day y) ∧ (C.day x = C.length (C.cell x) ∨ A.Short g y x))) := by
  have hday := C.day_le x
  obtain ⟨hle, hge, hiff⟩ := pred_or_self (p := g ∣ C.cell x - C.cell y ∧ C.day x < C.day y)
    (q := C.Clamped g y x ∧ ¬A.Short g y x) (fun h => ⟨h.1.1, h.1.2.1⟩) (C.steps g y x)
  refine ⟨hle, hge, hiff.trans (not_congr (and_congr_right fun haligned => ?_))⟩
  have hclamped : C.Clamped g y x ↔ C.day x < C.length (C.cell x) := by
    unfold Clamped
    rw [← and_assoc, and_iff_right haligned]
  rw [hclamped, not_and_or, not_not]
  apply or_congr_left
  omega

end Reached

end Calendar

namespace Grid

-- The nearer of two neighbours, the upper one when they are equally near
def nearest (x f c : ℤ) : ℤ := if x - f < c - x then f else c

-- `f` and `c` are the neighbours of `x` in `S`, and `r` is the nearer one.
structure Rounded (S : Set ℤ) (x f c r : ℤ) : Prop where
  floor : IsGreatest {z | z ∈ S ∧ z ≤ x} f
  ceil : IsLeast {z | z ∈ S ∧ x ≤ z} c
  nearest : r = nearest x f c

variable {g : ℤ → ℤ} (hg : StrictMono g) {x k : ℤ}

include hg

theorem isGreatest_of_between (hlo : g k ≤ x) (hhi : x < g (k + 1)) : IsGreatest {z | z ∈ Set.range g ∧ z ≤ x} (g k) := by
  refine ⟨⟨⟨k, rfl⟩, hlo⟩, ?_⟩
  rintro z ⟨⟨j, rfl⟩, hj⟩
  have hlt : j < k + 1 := hg.lt_iff_lt.mp (hj.trans_lt hhi)
  exact hg.monotone (Int.lt_add_one_iff.mp hlt)

theorem isLeast_of_between (hlo : g k < x) (hhi : x ≤ g (k + 1)) : IsLeast {z | z ∈ Set.range g ∧ x ≤ z} (g (k + 1)) := by
  refine ⟨⟨⟨k + 1, rfl⟩, hhi⟩, ?_⟩
  rintro z ⟨⟨j, rfl⟩, hj⟩
  have hlt : k < j := hg.lt_iff_lt.mp (hlo.trans_le hj)
  exact hg.monotone hlt

omit hg in
theorem isLeast_self (k : ℤ) : IsLeast {z | z ∈ Set.range g ∧ g k ≤ z} (g k) := ⟨⟨⟨k, rfl⟩, le_refl _⟩, fun _ hz => hz.2⟩

-- The neighbours of a point between two steps
theorem rounded_between (hlo : g k ≤ x) (hhi : x < g (k + 1)) :
    Rounded (Set.range g) x (g k) (if x = g k then g k else g (k + 1)) (nearest x (g k) (if x = g k then g k else g (k + 1))) := by
  refine ⟨isGreatest_of_between hg hlo hhi, ?_, rfl⟩
  by_cases heq : x = g k
  · rw [if_pos heq, heq]
    exact isLeast_self k
  · rw [if_neg heq]
    exact isLeast_of_between hg (lt_of_le_of_ne hlo (Ne.symm heq)) hhi.le

end Grid
